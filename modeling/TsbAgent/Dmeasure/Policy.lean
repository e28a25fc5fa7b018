/-
# The policy list of the process measurement

`tsb/kernel/dmeasure/policy/policy_dmeasure.c`: the kernel keeps the items in one list and
`query_policy_dmeasure_process` takes the first that matches, so the precedence of the three
kinds of object ids is the order of the list.

| new item | where `add_process_policy` puts it |
| --- | --- |
| hash | at the head |
| process name | at the tail |
| full path | after the first full path; else before the first name, **but after it when a hash was passed on the way** |

The last row is the slip: the walk remembers the last hash, `p_process_hash_policy`, and then
inserts after `p_process_policy`, the node it stopped at.  `ordered_add_iff` says that this is
the only way the order is lost, and `ordered_iff_meets` that the lists of a run are all ordered
exactly when no full path is added to a list with hashes and names and no full path.

A list is changed under a write lock, item by item; a run is a list of such sections, in
whatever order the threads that call the parsers execute them.
-/

import TsbAgent.Lib.Drain
import TsbAgent.Lib.Run
import TsbAgent.Tcf.Basic

namespace TsbAgent
namespace Dmeasure

open Libc Word Run Drain FileIntegrity

/-! ### The items -/

/-- `object_id_type`, with the values that `enum PROCESS_DMEASURE_OBJECT_ID` does not name. -/
inductive ObjectIdType
  | fullPath
  | process
  | hash
  | other (code : UInt8)
deriving DecidableEq

/-- The type a byte stands for. -/
def ObjectIdType.ofByte (b : UInt8) : ObjectIdType :=
  if b = 0 then .fullPath else if b = 1 then .process else if b = 2 then .hash else .other b

/-- `struct dmeasure_process_item`, in host byte order. -/
structure DmeasureProcessItem where
  objectIdType : ObjectIdType
  subProcessMode : ℕ
  oldProcessMode : ℕ
  shareLibMode : ℕ
  beMeasureInterval : ℕ
  beObjectIdLength : ℕ
  objectId : Bytes
  length_objectId : objectId.length = beObjectIdLength
deriving DecidableEq

/-- The fields of `struct dmeasure_feature_conf` that replace a zero of an item. -/
structure DmeasureFeatureConf where
  timeInterval : ℕ
  isLibMeasure : ℕ
  isChildMeasure : ℕ
  isExsitedProcessMeasure : ℕ

/-- `struct process_policy` as the list holds it. -/
structure ProcessPolicy where
  objectIdType : ObjectIdType
  subProcessMode : ℤ
  oldProcessMode : ℤ
  shareLibMode : ℤ
  beMeasureInterval : ℤ
  beObjectIdLength : ℕ
  objectId : Bytes
  length_objectId : objectId.length = beObjectIdLength
deriving DecidableEq

/-- The item at `p_item`, converted; memory behind the modelled bytes reads as zero. -/
def itemAt (m : Bytes) : DmeasureProcessItem where
  objectIdType := .ofByte (m.getD 0 0)
  subProcessMode := netAt m 1 1
  oldProcessMode := netAt m 2 1
  shareLibMode := netAt m 3 1
  beMeasureInterval := netAt m 4 4
  beObjectIdLength := netAt m 8 2
  objectId := (m.drop 10).takeD (netAt m 8 2) 0
  length_objectId := List.takeD_length _ _ _

/-- `item_len` after `BYTE4_ALIGNMENT`. -/
def DmeasureProcessItem.itemLen (x : DmeasureProcessItem) : ℕ := align4 (10 + x.beObjectIdLength)

/-- The item at `p_item` and what it takes. -/
def readItem (m : Bytes) : Option (DmeasureProcessItem × ℕ) := some (itemAt m, (itemAt m).itemLen)

/-- The items of a buffer and the length that is left; a turn of the loop takes at least 12 bytes, so
`length` turns are enough. -/
def items (m : Bytes) (length : ℤ) : List DmeasureProcessItem × ℤ :=
  (drain readItem length.toNat m length).getD ([], length)

/-- The node that is allocated for an item. -/
def newPolicy (f : DmeasureFeatureConf) (x : DmeasureProcessItem) : ProcessPolicy where
  objectIdType := x.objectIdType
  subProcessMode := int32 (if x.subProcessMode = 0 then f.isChildMeasure else x.subProcessMode)
  oldProcessMode := int32 (if x.oldProcessMode = 0 then f.isExsitedProcessMeasure else x.oldProcessMode)
  shareLibMode := int32 (if x.shareLibMode = 0 then f.isLibMeasure else x.shareLibMode)
  beMeasureInterval := int32 (if x.beMeasureInterval = 0 then f.timeInterval else x.beMeasureInterval)
  beObjectIdLength := x.beObjectIdLength
  objectId := x.objectId
  length_objectId := x.length_objectId

/-! ### The list -/

/-- The walk of `add_process_policy` over the nodes that are left, and where it inserts; `hash` says
whether `p_process_hash_policy` is set. -/
def addFullPath (x : ProcessPolicy) : Bool → List ProcessPolicy → List ProcessPolicy
  | _, [] => [x]
  | hash, y :: ys =>
      match y.objectIdType with
      | .hash => y :: addFullPath x true ys
      | .fullPath => y :: x :: ys
      -- the walk stops at the first name, and `p_process_policy` is that node
      | .process => if hash then y :: x :: ys else x :: y :: ys
      | .other _ => y :: addFullPath x hash ys

/-- `add_process_policy`. -/
def addProcessPolicy (l : List ProcessPolicy) (x : ProcessPolicy) : List ProcessPolicy :=
  match x.objectIdType with
  | .hash => x :: l
  | .process => l ++ [x]
  | _ => addFullPath x false l

/-- The test of `parse_del_policy_dmeasure_process`. -/
def DmeasureProcessItem.names (x : DmeasureProcessItem) (y : ProcessPolicy) : Bool :=
  y.beObjectIdLength = x.beObjectIdLength ∧ memcmp x.beObjectIdLength y.objectId x.objectId = 0

/-- The loop of `parse_del_policy_dmeasure_process`: the first node with the object id leaves. -/
def delProcessPolicy (l : List ProcessPolicy) (x : DmeasureProcessItem) : List ProcessPolicy :=
  l.eraseP x.names

/-- What one write lock protects. -/
inductive Locked
  | add (x : ProcessPolicy)
  | del (x : DmeasureProcessItem)
  | clean
deriving DecidableEq

/-- A locked section; `none` when the object id has overrun `object_ids[512]` before it. -/
def lockedStep (l : List ProcessPolicy) : Locked → Option (List ProcessPolicy)
  | .add x => some (addProcessPolicy l x)
  | .del x => if x.beObjectIdLength ≤ 512 then some (delProcessPolicy l x) else none
  | .clean => some []

/-- The sections of `parse_add_policy_dmeasure_process`; `granted` are the answers of `kzalloc`. -/
def parseAddPolicyDmeasureProcess (f : DmeasureFeatureConf) :
    List Bool → List DmeasureProcessItem → List Locked
  | true :: granted, x :: xs => .add (newPolicy f x) :: parseAddPolicyDmeasureProcess f granted xs
  | _, _ => []

/-- A call of one of the ioctls, with the buffer it has copied or fetched. -/
inductive Request
  | add (buff : Bytes) (length : ℤ)
  | del (buff : Bytes) (length : ℤ)
  | reload (buff : Bytes) (length : ℤ)

/-- The sections a request goes through. -/
def Request.sections (f : DmeasureFeatureConf) (granted : List Bool) : Request → List Locked
  | .add buff length => parseAddPolicyDmeasureProcess f granted (items buff length).1
  | .del buff length => (items buff length).1.map .del
  | .reload buff length => .clean :: parseAddPolicyDmeasureProcess f granted (items buff length).1

/-! ### The query -/

/-- What a process is asked about with. -/
structure Query where
  fullPath : CStr
  processName : CStr
  hash : Bytes

/-- The `switch` of `query_policy_dmeasure_process`. -/
def Query.isExist (q : Query) (y : ProcessPolicy) : Bool :=
  match y.objectIdType with
  | .fullPath => strcmp q.fullPath.bytes y.objectId = 0
  | .process => strcmp q.processName.bytes y.objectId = 0
  | .hash => y.beObjectIdLength = q.hash.length ∧ memcmp y.beObjectIdLength q.hash y.objectId = 0
  | .other _ => false

/-- `query_policy_dmeasure_process`. -/
def queryPolicyDmeasureProcess (l : List ProcessPolicy) (q : Query) : Option ProcessPolicy :=
  l.find? q.isExist

/-- The item names the process: by its path or its name up to their terminators, or by its hash. -/
def Query.Matches (q : Query) (y : ProcessPolicy) : Prop :=
  match y.objectIdType with
  | .fullPath => cstr y.objectId = q.fullPath.bytes
  | .process => cstr y.objectId = q.processName.bytes
  | .hash => y.objectId = q.hash
  | .other _ => False

theorem Query.isExist_iff {q : Query} {y : ProcessPolicy} : q.isExist y = true ↔ q.Matches y := by
  have hstr : ∀ t : CStr, strcmp t.bytes y.objectId = 0 ↔ cstr y.objectId = t.bytes := by
    intro t
    rw [strcmp_eq_zero_iff_cstr, cstr_of_nulFree t.nulFree]
    exact eq_comm
  unfold Query.isExist Query.Matches
  cases y.objectIdType with
  | fullPath => simp [hstr]
  | process => simp [hstr]
  | hash =>
      have hy := y.length_objectId
      simp only [decide_eq_true_eq]
      constructor
      · rintro ⟨hlen, hcmp⟩
        rw [memcmp_eq_zero hlen.le hy.ge, ← hy, List.take_length, hy, hlen, List.take_length] at hcmp
        exact hcmp.symm
      · intro h
        refine ⟨by rw [← hy, h], ?_⟩
        rw [memcmp_eq_zero (by rw [← hy, h]) hy.ge, h]
  | other code => simp

instance (q : Query) (y : ProcessPolicy) : Decidable (q.Matches y) := decidable_of_iff _ Query.isExist_iff

/-! ### The order -/

/-- Hashes come first, then full paths, then names; an item of another type never matches. -/
def ObjectIdType.precedence : ObjectIdType → Option ℕ
  | .hash => some 0
  | .fullPath => some 1
  | .process => some 2
  | .other _ => none

/-- `a` may stand before `b`. -/
def Before (a b : ProcessPolicy) : Prop :=
  ∀ i ∈ a.objectIdType.precedence, ∀ j ∈ b.objectIdType.precedence, i ≤ j

/-- All hash items, then all full paths, then all names. -/
def Ordered (l : List ProcessPolicy) : Prop := l.Pairwise Before

instance : DecidableRel Before := fun a b =>
  inferInstanceAs (Decidable (∀ i ∈ a.objectIdType.precedence, ∀ j ∈ b.objectIdType.precedence, i ≤ j))

instance (l : List ProcessPolicy) : Decidable (Ordered l) := inferInstanceAs (Decidable (l.Pairwise Before))

/-- Some item of the list has the type. -/
def Has (t : ObjectIdType) (l : List ProcessPolicy) : Prop := ∃ y ∈ l, y.objectIdType = t

instance (t : ObjectIdType) (l : List ProcessPolicy) : Decidable (Has t l) :=
  inferInstanceAs (Decidable (∃ y ∈ l, y.objectIdType = t))

theorem has_cons {t : ObjectIdType} {y : ProcessPolicy} {l : List ProcessPolicy} :
    Has t (y :: l) ↔ y.objectIdType = t ∨ Has t l := by
  simp [Has]

theorem not_has_nil {t : ObjectIdType} : ¬ Has t [] := by simp [Has]

theorem ordered_cons {y : ProcessPolicy} {l : List ProcessPolicy} :
    Ordered (y :: l) ↔ (∀ z ∈ l, Before y z) ∧ Ordered l := List.pairwise_cons

theorem before_of_other_left {a b : ProcessPolicy} (h : a.objectIdType.precedence = none) : Before a b := by
  simp [Before, h]

theorem before_of_other_right {a b : ProcessPolicy} (h : b.objectIdType.precedence = none) : Before a b := by
  simp [Before, h]

theorem before_of_hash {a b : ProcessPolicy} (h : a.objectIdType = .hash) : Before a b := by
  simp [Before, h, ObjectIdType.precedence]

theorem before_of_process {a b : ProcessPolicy} (h : b.objectIdType = .process) : Before a b := by
  intro i hi j hj
  rw [h] at hj
  obtain rfl := Option.some.inj hj
  cases ha : a.objectIdType <;> rw [ha] at hi <;> cases hi <;> omega

/-- A second item fits where it may follow the first and come before the rest. -/
theorem ordered_second {x y : ProcessPolicy} {ys : List ProcessPolicy} (h : Ordered (y :: ys))
    (hyx : Before y x) (hx : ∀ z ∈ ys, Before x z) : Ordered (y :: x :: ys) := by
  obtain ⟨hy, hys⟩ := ordered_cons.mp h
  refine ordered_cons.mpr ⟨fun z hz => ?_, ordered_cons.mpr ⟨hx, hys⟩⟩
  rcases List.mem_cons.mp hz with rfl | hz
  · exact hyx
  · exact hy z hz

/-- Nothing that precedes is behind a name. -/
theorem not_has_of_before_process {t : ObjectIdType} {y : ProcessPolicy} {l : List ProcessPolicy}
    (hy : y.objectIdType = .process) (h : ∀ z ∈ l, Before y z) (ht : ∃ i ∈ t.precedence, i < 2) :
    ¬ Has t l := by
  rintro ⟨z, hz, rfl⟩
  obtain ⟨i, hi, hlt⟩ := ht
  have := h z hz 2 (by rw [hy]; rfl) i hi
  omega

theorem addFullPath_perm (x : ProcessPolicy) (hash : Bool) (l : List ProcessPolicy) :
    (addFullPath x hash l).Perm (x :: l) := by
  induction l generalizing hash with
  | nil => exact List.Perm.refl _
  | cons y ys ih =>
      unfold addFullPath
      split
      · exact ((ih true).cons y).trans (List.Perm.swap x y ys)
      · exact List.Perm.swap x y ys
      · split_ifs
        · exact List.Perm.swap x y ys
        · exact List.Perm.refl _
      · exact ((ih hash).cons y).trans (List.Perm.swap x y ys)

/-- Where the walk goes wrong: it has passed a hash and stops at a name. -/
def Misplaces (hash : Bool) (l : List ProcessPolicy) : Prop :=
  (hash = true ∨ Has .hash l) ∧ Has .process l ∧ ¬ Has .fullPath l

/-- The walk keeps the order exactly when it does not stop at a name after a hash. -/
theorem ordered_addFullPath_iff {x : ProcessPolicy} {l : List ProcessPolicy} (hash : Bool)
    (hx : x.objectIdType = .fullPath) (hl : Ordered l) :
    Ordered (addFullPath x hash l) ↔ ¬ Misplaces hash l := by
  induction l generalizing hash with
  | nil => simp [addFullPath, Ordered, Misplaces, not_has_nil]
  | cons y ys ih =>
      obtain ⟨hy, hys⟩ := ordered_cons.mp hl
      unfold addFullPath
      cases ht : y.objectIdType with
      | hash =>
          have hfront : ∀ z ∈ addFullPath x true ys, Before y z := fun z _ => before_of_hash ht
          simp only [ordered_cons, ih true hys, and_iff_right hfront]
          simp [Misplaces, has_cons, ht]
      | fullPath =>
          have hxy : ∀ z ∈ ys, Before x z := by
            intro z hz i hi
            exact hy z hz i (by rwa [ht, ← hx])
          have hyx : Before y x := by
            intro i hi j hj
            rw [ht] at hi
            rw [hx] at hj
            exact (Option.mem_unique hi hj).le
          have hord : Ordered (y :: x :: ys) := ordered_second hl hyx hxy
          simp [hord, Misplaces, has_cons, ht]
      | process =>
          have hpath : ¬ Has .fullPath ys := not_has_of_before_process ht hy ⟨1, rfl, by omega⟩
          have hhash : ¬ Has .hash ys := not_has_of_before_process ht hy ⟨0, rfl, by omega⟩
          cases hash with
          | true =>
              have hbad : ¬ Before y x := by
                intro h
                have := h 2 (by rw [ht]; rfl) 1 (by rw [hx]; rfl)
                omega
              simp [ordered_cons, hbad, Misplaces, has_cons, ht, hpath]
          | false =>
              have hxy : ∀ z ∈ y :: ys, Before x z := by
                intro z hz
                rcases List.mem_cons.mp hz with rfl | hz
                · exact before_of_process ht
                · intro i hi j hj
                  rw [hx] at hi
                  obtain rfl := Option.some.inj hi
                  have := hy z hz 2 (by rw [ht]; rfl) j hj
                  omega
              have hord : Ordered (x :: y :: ys) := ordered_cons.mpr ⟨hxy, hl⟩
              simp [hord, Misplaces, has_cons, ht, hhash]
      | other code =>
          have hfront : ∀ z ∈ addFullPath x hash ys, Before y z := fun z _ =>
            before_of_other_left (by rw [ht]; rfl)
          simp only [ordered_cons, ih hash hys, and_iff_right hfront]
          simp [Misplaces, has_cons, ht]

/-- An item of no known type goes anywhere. -/
theorem ordered_addFullPath_other {x : ProcessPolicy} {l : List ProcessPolicy} (hash : Bool)
    (hx : x.objectIdType.precedence = none) (hl : Ordered l) : Ordered (addFullPath x hash l) := by
  induction l generalizing hash with
  | nil => simp [addFullPath, Ordered]
  | cons y ys ih =>
      obtain ⟨hy, hys⟩ := ordered_cons.mp hl
      have hfront : ∀ h, ∀ z ∈ addFullPath x h ys, Before y z := by
        intro h z hz
        rcases List.mem_cons.mp ((addFullPath_perm x h ys).mem_iff.mp hz) with rfl | hz
        · exact before_of_other_right hx
        · exact hy z hz
      have hx' : ∀ z : ProcessPolicy, Before x z := fun z => before_of_other_left hx
      have hyx : Before y x := before_of_other_right hx
      unfold addFullPath
      split
      · exact ordered_cons.mpr ⟨hfront true, ih true hys⟩
      · exact ordered_second hl hyx fun z _ => hx' z
      · split_ifs
        · exact ordered_second hl hyx fun z _ => hx' z
        · exact ordered_cons.mpr ⟨fun z _ => hx' z, hl⟩
      · exact ordered_cons.mpr ⟨hfront hash, ih hash hys⟩

/-- A full path is added to a list with hashes and names and no full path. -/
def Locked.Slips (l : List ProcessPolicy) : Locked → Prop
  | .add x => x.objectIdType = .fullPath ∧ Has .hash l ∧ Has .process l ∧ ¬ Has .fullPath l
  | _ => False

/-- **An addition keeps the order** exactly when it is not such a full path. -/
theorem ordered_add_iff {x : ProcessPolicy} {l : List ProcessPolicy} (hl : Ordered l) :
    Ordered (addProcessPolicy l x) ↔ ¬ Locked.Slips l (.add x) := by
  unfold addProcessPolicy Locked.Slips
  cases ht : x.objectIdType with
  | hash =>
      have hord : Ordered (x :: l) := ordered_cons.mpr ⟨fun z _ => before_of_hash ht, hl⟩
      simp [hord, ht]
  | process =>
      have hord : Ordered (l ++ [x]) := by
        refine List.pairwise_append.mpr ⟨hl, List.pairwise_singleton _ _, fun a _ b hb => ?_⟩
        rw [List.mem_singleton.mp hb]
        exact before_of_process ht
      simp [hord, ht]
  | fullPath => simpa [Misplaces, ht] using ordered_addFullPath_iff false ht hl
  | other code => simpa [ht] using ordered_addFullPath_other false (by rw [ht]; rfl) hl

theorem ordered_del {l : List ProcessPolicy} (x : DmeasureProcessItem) (hl : Ordered l) :
    Ordered (delProcessPolicy l x) :=
  List.Pairwise.sublist List.eraseP_sublist hl

/-! ### Runs -/

/-- The order is kept and `object_ids` is not overrun. -/
def Locked.Keeps (l : List ProcessPolicy) (a : Locked) : Prop :=
  ¬ a.Slips l ∧ ∀ x, a = .del x → x.beObjectIdLength ≤ 512

/-- **One section:** from an ordered list, it leads to an ordered list exactly when it `Keeps`. -/
theorem lockedStep_iff {l : List ProcessPolicy} (a : Locked) (hl : Ordered l) :
    a.Keeps l ↔ ∃ l', lockedStep l a = some l' ∧ Ordered l' := by
  cases a with
  | add x => simp [Locked.Keeps, lockedStep, ordered_add_iff hl]
  | del x =>
      by_cases h : x.beObjectIdLength ≤ 512
      · simp [Locked.Keeps, Locked.Slips, lockedStep, h, ordered_del x hl]
      · simp [Locked.Keeps, lockedStep, h]
  | clean => simp [Locked.Keeps, Locked.Slips, lockedStep, Ordered]

/-- The first item that matches comes before the others that do. -/
theorem query_before {l : List ProcessPolicy} {q : Query} {p y : ProcessPolicy} (hl : Ordered l)
    (hp : queryPolicyDmeasureProcess l q = some p) (hy : y ∈ l) (hm : q.Matches y) :
    p = y ∨ Before p y := by
  obtain ⟨-, as, bs, rfl, has⟩ := List.find?_eq_some_iff_append.mp hp
  rcases List.mem_append.mp hy with h | h
  · have := has y h
    rw [Query.isExist_iff.mpr hm] at this
    exact absurd this (by decide)
  · rcases List.mem_cons.mp h with rfl | h
    · exact .inl rfl
    · exact .inr ((ordered_cons.mp (List.pairwise_append.mp hl).2.1).1 y h)

/-- An item of the type matches. -/
def MatchOf (l : List ProcessPolicy) (q : Query) (t : ObjectIdType) : Prop :=
  ∃ y ∈ l, y.objectIdType = t ∧ q.Matches y

/-- The query returns an item of the type that matches. -/
def ReturnsOf (l : List ProcessPolicy) (q : Query) (t : ObjectIdType) : Prop :=
  ∃ p ∈ l, queryPolicyDmeasureProcess l q = some p ∧ p.objectIdType = t ∧ q.Matches p

instance (l : List ProcessPolicy) (q : Query) (t : ObjectIdType) : Decidable (MatchOf l q t) :=
  inferInstanceAs (Decidable (∃ y ∈ l, y.objectIdType = t ∧ q.Matches y))

instance (l : List ProcessPolicy) (q : Query) (t : ObjectIdType) : Decidable (ReturnsOf l q t) :=
  inferInstanceAs (Decidable (∃ p ∈ l, queryPolicyDmeasureProcess l q = some p ∧ p.objectIdType = t ∧
    q.Matches p))

/-- A hash item if one matches, else a full path if one matches, else a name, and `NULL` exactly when
nothing matches. -/
structure Precedence (l : List ProcessPolicy) (q : Query) : Prop where
  hash : MatchOf l q .hash → ReturnsOf l q .hash
  fullPath : ¬ MatchOf l q .hash → MatchOf l q .fullPath → ReturnsOf l q .fullPath
  process : ¬ MatchOf l q .hash → ¬ MatchOf l q .fullPath → MatchOf l q .process → ReturnsOf l q .process
  null : queryPolicyDmeasureProcess l q = none ↔ ∀ y ∈ l, ¬ q.Matches y

/-- Whatever is returned is in the list, matches, and precedes what else matches. -/
theorem query_spec {l : List ProcessPolicy} {q : Query} {t : ObjectIdType} (hl : Ordered l)
    (ht : MatchOf l q t) : ∃ p ∈ l, queryPolicyDmeasureProcess l q = some p ∧ q.Matches p ∧
      ∀ i ∈ p.objectIdType.precedence, ∀ j ∈ t.precedence, i ≤ j := by
  obtain ⟨y, hy, rfl, hm⟩ := ht
  have hsome : (queryPolicyDmeasureProcess l q).isSome := by
    rw [queryPolicyDmeasureProcess, List.find?_isSome]
    exact ⟨y, hy, Query.isExist_iff.mpr hm⟩
  obtain ⟨p, hp⟩ := Option.isSome_iff_exists.mp hsome
  refine ⟨p, List.mem_of_find?_eq_some hp, hp, Query.isExist_iff.mp (List.find?_some hp), ?_⟩
  rcases query_before hl hp hy hm with rfl | h
  · intro i hi j hj
    exact (Option.mem_unique hi hj).le
  · exact h

/-- **An ordered list is queried by precedence.** -/
theorem precedence_of_ordered {l : List ProcessPolicy} (hl : Ordered l) (q : Query) : Precedence l q := by
  have hret : ∀ {t p}, p ∈ l → queryPolicyDmeasureProcess l q = some p → q.Matches p →
      p.objectIdType = t → ReturnsOf l q t := fun hp hq hm h => ⟨_, hp, hq, h, hm⟩
  refine ⟨fun h => ?_, fun h₀ h => ?_, fun h₀ h₁ h => ?_, ?_⟩
  · obtain ⟨p, hp, hq, hm, hle⟩ := query_spec hl h
    refine hret hp hq hm ?_
    cases ht : p.objectIdType with
    | hash => rfl
    | fullPath => exact absurd (hle 1 (by rw [ht]; rfl) 0 rfl) (by omega)
    | process => exact absurd (hle 2 (by rw [ht]; rfl) 0 rfl) (by omega)
    | other code => simp [Query.Matches, ht] at hm
  · obtain ⟨p, hp, hq, hm, hle⟩ := query_spec hl h
    refine hret hp hq hm ?_
    cases ht : p.objectIdType with
    | hash => exact absurd ⟨p, hp, ht, hm⟩ h₀
    | fullPath => rfl
    | process => exact absurd (hle 2 (by rw [ht]; rfl) 1 rfl) (by omega)
    | other code => simp [Query.Matches, ht] at hm
  · obtain ⟨p, hp, hq, hm, hle⟩ := query_spec hl h
    refine hret hp hq hm ?_
    cases ht : p.objectIdType with
    | hash => exact absurd ⟨p, hp, ht, hm⟩ h₀
    | fullPath => exact absurd ⟨p, hp, ht, hm⟩ h₁
    | process => rfl
    | other code => simp [Query.Matches, ht] at hm
  · rw [queryPolicyDmeasureProcess, List.find?_eq_none]
    exact forall₂_congr fun y _ => not_congr Query.isExist_iff

/-- **The order and the precedence over a run:** every list that the sections reach is ordered and
queried by precedence exactly when no section adds a full path to a list with hashes and names
and no full path, and none deletes an id of more than 512 bytes. -/
theorem ordered_iff_meets (es : List Locked) :
    (∀ es₁ es₂, es = es₁ ++ es₂ → ∃ l, run lockedStep [] es₁ = some l ∧ Ordered l ∧
      ∀ q, Precedence l q) ↔ Meets lockedStep Locked.Keeps [] es := by
  rw [← forall_prefix_iff_meets (fun s a hs => lockedStep_iff a hs) List.Pairwise.nil]
  constructor
  · intro h es₁ es₂ happ
    obtain ⟨l, hrun, hl, -⟩ := h es₁ es₂ happ
    exact ⟨l, hrun, hl⟩
  · intro h es₁ es₂ happ
    obtain ⟨l, hrun, hl⟩ := h es₁ es₂ happ
    exact ⟨l, hrun, hl, precedence_of_ordered hl⟩

/-- An update with a hash, the name `a` and the path `/a`, in this order. -/
def hashNamePath : List Locked :=
  (Request.add
    [2, 0, 0, 0, 0, 0, 0, 0, 0, 1, 7, 0,
     1, 0, 0, 0, 0, 0, 0, 0, 0, 1, 97, 0,
     0, 0, 0, 0, 0, 0, 0, 0, 0, 2, 47, 97] 36).sections ⟨1, 2, 1, 1⟩ [true, true, true]

/-- After it the full path stands behind the name, and `/a` is measured by the item of its name. -/
theorem name_before_full_path : ∃ l, run lockedStep [] hashNamePath = some l ∧ ¬ Ordered l ∧
    ∃ q, MatchOf l q .fullPath ∧ ReturnsOf l q .process ∧ ¬ Precedence l q := by
  refine ⟨(run lockedStep [] hashNamePath).getD [], by decide +kernel, by decide +kernel,
    ⟨CStr.ofBytes [47, 97], CStr.ofBytes [97], [8]⟩, by decide +kernel, by decide +kernel, ?_⟩
  intro h
  exact absurd (h.fullPath (by decide +kernel) (by decide +kernel)) (by decide +kernel)

end Dmeasure
end TsbAgent
