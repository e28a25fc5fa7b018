/-
# The commands of the path whitelist

`ioctl_fac_whitelist_path_add_policy`, `ioctl_fac_whitelist_path_del_policy` and
`query_whitelist_path` of `tsb/kernel/accessctl/policy/hash_whitelist_path.c`, for any sequence of
requests with any buffers.  Each finds the chain of a path in its own way:

| function | bytes that are hashed | bytes that are stored |
| --- | --- | --- |
| a command, buffer of at most 512 bytes | the path | the path |
| a command, longer buffer | 511 of the buffer, the path or not | the same |
| `query_whitelist_path` | the path | |

and both commands compare what is stored with the whole path.  `whitelist_path_refines_set_iff` says
which requests keep the table a set of paths: those whose path is hashed as it will be asked for,
and, when it is new, is stored whole.  A request that is not served for want of memory is answered
with `0` like one that is.
-/

import TsbAgent.Fac.ListFac
import TsbAgent.Whitelist.Ioctl
import TsbAgent.Whitelist.TableSwap

namespace TsbAgent
namespace Whitelist

open Libc Chained Run Counted

/-- `whitelist_path_hashtable` and `whitelist_path_obj_count`. -/
structure PathTable where
  hashtable : Table UInt32 CStr
  objCount : ℤ

/-- The table without entries. -/
def pathInit : PathTable := ⟨Table.empty, 0⟩

/-- A request. -/
inductive PathRequest
  | add (p : PolicyParam)
  | del (p : PolicyParam)

/-- The copying of the argument, the same in both commands.  A length below zero fails in `vmalloc`.
None: `strlen` reads beyond the buffer. -/
def takePath (p : PolicyParam) : Option (Except ℤ PathArg) :=
  if p.copied = false ∨ p.data = [] then some (.error (-1))
  else if p.vmalloc = false then some (.error (-1))
  else if p.copiedData = false then some (.error (-1))
  else if p.data.length ≤ whitelistPathLen ∧ (0 : UInt8) ∉ p.data then none
  else some (.ok (ioctlPathArg p.data))

section Commands

variable (jhash : Jhash) (random : UInt32)

/-- `ioctl_fac_whitelist_path_add_policy`. -/
def ioctlPathAdd (p : PolicyParam) (w : PathTable) : Option (PathTable × ℤ) :=
  (takePath p).map fun
    | .error ret => (w, ret)
    | .ok b =>
        let o := whitelistPathOps jhash random
        if o.found w.hashtable b then (w, 0)
        else if p.kzalloc 0 = false then (w, 0)
        else (⟨w.hashtable.push (o.key b) (o.entry b), w.objCount + 1⟩, 0)

/-- `ioctl_fac_whitelist_path_del_policy`. -/
def ioctlPathDel (p : PolicyParam) (w : PathTable) : Option (PathTable × ℤ) :=
  (takePath p).map fun
    | .error ret => (w, ret)
    | .ok b =>
        let o := whitelistPathOps jhash random
        if o.found w.hashtable b then
          (⟨w.hashtable.eraseFirst (o.key b) fun x => o.hit x b, w.objCount - 1⟩, 0)
        else (w, 0)

/-- A request to the kernel. -/
def pathRequest (w : PathTable) : PathRequest → Option (PathTable × ℤ)
  | .add p => ioctlPathAdd jhash random p w
  | .del p => ioctlPathDel jhash random p w

end Commands

/-! ### A set of paths -/

/-- The path of a request. -/
def PathRequest.path : PathRequest → CStr
  | .add p => CStr.ofBytes p.data
  | .del p => CStr.ofBytes p.data

/-- What an accepted request does to a set of paths. -/
def pathSpec (S : Set CStr) (r : PathRequest) (ret : ℤ) : Set CStr :=
  if ret ≠ 0 then S
  else
    match r with
    | .add _ => insert r.path S
    | .del _ => S \ {r.path}

section Spec

variable (jhash : Jhash) (random : UInt32)

/-- The table with the set that it should be. -/
def pathStep (s : PathTable × Set CStr) (r : PathRequest) : Option (PathTable × Set CStr) :=
  (pathRequest jhash random s.1 r).map fun out => (out.1, pathSpec s.2 r out.2)

/-- The chain that `query_whitelist_path` looks in. -/
def pathKey (s : CStr) : UInt32 := stringHashKey jhash random s.bytes

/-- **The table is this set of paths**: to the query, with nothing else and nothing twice in it, with its
count and with every path whole. -/
structure TracksPaths (w : PathTable) (S : Set CStr) : Prop where
  query : ∀ s : SecDomain, Fac.queryWhitelistPath jhash random w.hashtable s = 0 ↔ s.objName ∈ S
  stored : w.hashtable.contents = S
  chain : ∀ {i j x}, x ∈ w.hashtable i → x ∈ w.hashtable j → i = j
  once : ∀ i, (w.hashtable i).Nodup
  count : w.objCount = size hashChains w.hashtable
  whole : ∀ x ∈ S, x.strlen < whitelistPathLen

/-- The bytes of the request that are hashed have the chain of its path. -/
def HashedWhole (p : PolicyParam) : Prop :=
  (whitelistPathOps jhash random).key (ioctlPathArg p.data) = pathKey jhash random (CStr.ofBytes p.data)

/-- The argument of the request cannot be copied. -/
def Refused (p : PolicyParam) : Prop :=
  p.copied = false ∨ p.data = [] ∨ p.vmalloc = false ∨ p.copiedData = false

/-- The path of the request is looked for in the buffer: it ends there, or the buffer is longer than a
path. -/
def Ends (p : PolicyParam) : Prop := p.data.length ≤ whitelistPathLen → (0 : UInt8) ∈ p.data

/-- When a request is served as it is answered: it is refused; or its path ends, is hashed whole, and for an
addition is there, or is short enough and gets its memory. -/
def Served (s : PathTable × Set CStr) : PathRequest → Prop
  | .add p => Refused p ∨ Ends p ∧
      (CStr.ofBytes p.data ∈ s.2 → HashedWhole jhash random p ∨ p.kzalloc 0 = false) ∧
      (CStr.ofBytes p.data ∉ s.2 → HashedWhole jhash random p ∧ p.kzalloc 0 = true ∧
        (CStr.ofBytes p.data).strlen < whitelistPathLen)
  | .del p => Refused p ∨ Ends p ∧ (CStr.ofBytes p.data ∈ s.2 → HashedWhole jhash random p)

end Spec

section Commands

variable {jhash : Jhash} {random : UInt32} {p : PolicyParam} {w : PathTable} {S : Set CStr} {x : CStr}

/-! ### One command -/

theorem takePath_refused (h : Refused p) : takePath p = some (.error (-1)) := by
  rw [takePath]
  rcases h with h | h | h | h
  · rw [if_pos (.inl h)]
  · rw [if_pos (.inr h)]
  · rw [if_pos h, ite_self]
  · rw [if_pos h, ite_self, ite_self]

theorem takePath_ok (h : ¬ Refused p) (hends : Ends p) : takePath p = some (.ok (ioctlPathArg p.data)) := by
  simp only [Refused, not_or] at h
  obtain ⟨hcopied, hdata, hvmalloc, hcopiedData⟩ := h
  have hin : ¬ (p.data.length ≤ whitelistPathLen ∧ (0 : UInt8) ∉ p.data) := fun hn => hn.2 (hends hn.1)
  rw [takePath, if_neg (not_or.mpr ⟨hcopied, hdata⟩), if_neg hvmalloc, if_neg hcopiedData, if_neg hin]

theorem takePath_fault (h : ¬ Refused p) (hends : ¬ Ends p) : takePath p = none := by
  simp only [Refused, not_or] at h
  obtain ⟨hcopied, hdata, hvmalloc, hcopiedData⟩ := h
  rw [takePath, if_neg (not_or.mpr ⟨hcopied, hdata⟩), if_neg hvmalloc, if_neg hcopiedData,
    if_pos (Classical.not_imp.mp hends)]

/-- What is stored is compared with the whole path. -/
theorem pathHit_iff {data : Bytes} :
    (whitelistPathOps jhash random).hit x (ioctlPathArg data) = true ↔ x = CStr.ofBytes data := by
  have hdec : (whitelistPathOps jhash random).hit x (ioctlPathArg data) = true ↔ strcmp x.bytes data = 0 :=
    decide_eq_true_iff
  rw [hdec, strcmp_eq_zero_iff_cstr, cstr_of_nulFree x.nulFree]
  exact ⟨fun h => CStr.ext h, fun h => congrArg CStr.bytes h⟩

/-- A command finds its path in the chain of the bytes that it hashes. -/
theorem pathFound_iff {data : Bytes} :
    (whitelistPathOps jhash random).found w.hashtable (ioctlPathArg data) = true ↔
    CStr.ofBytes data ∈ w.hashtable ((whitelistPathOps jhash random).key (ioctlPathArg data)) := by
  rw [Ops.found, Table.lookup, List.any_eq_true]
  constructor
  · rintro ⟨y, hy, hhit⟩
    exact pathHit_iff.mp hhit ▸ hy
  · exact fun h => ⟨_, h, pathHit_iff.mpr rfl⟩

theorem length_cstr_lt {data : Bytes} (h : (0 : UInt8) ∈ data) : (cstr data).length < data.length := by
  have hpre : cstr data <+: data := List.takeWhile_prefix _
  refine lt_of_le_of_ne hpre.length_le fun heq => ?_
  rw [← hpre.eq_of_length heq] at h
  exact zero_notMem_cstr data h

/-- What is stored has less than `PATH_LEN` bytes. -/
theorem pathEntry_strlen_lt (hends : Ends p) :
    ((whitelistPathOps jhash random).entry (ioctlPathArg p.data)).strlen < whitelistPathLen := by
  have hcut : (cstr (p.data.take (ioctlPathArg p.data).len)).length ≤ (ioctlPathArg p.data).len := by
    rw [cstr_take]
    exact List.length_take_le _ _
  refine lt_of_le_of_lt hcut ?_
  rw [ioctlPathArg]
  split_ifs with hlong
  · exact Nat.sub_lt (by decide) Nat.one_pos
  · exact (length_cstr_lt (hends (Nat.le_of_not_lt hlong))).trans_le (Nat.le_of_not_lt hlong)

/-- It is the path, when that is short enough. -/
theorem pathEntry_eq (hlt : (CStr.ofBytes p.data).strlen < whitelistPathLen) :
    (whitelistPathOps jhash random).entry (ioctlPathArg p.data) = CStr.ofBytes p.data := by
  have hlen : (cstr p.data).length ≤ (ioctlPathArg p.data).len := by
    rw [ioctlPathArg]
    split_ifs with hlong
    · exact Nat.le_sub_one_of_lt hlt
    · exact le_rfl
  apply CStr.ext
  exact (cstr_take p.data _).trans (List.take_of_length_le hlen)

theorem query_iff (s : SecDomain) : Fac.queryWhitelistPath jhash random w.hashtable s = 0 ↔
    s.objName ∈ w.hashtable (pathKey jhash random s.objName) := by
  have hlook : w.hashtable.lookup (pathKey jhash random s.objName) (fun p => strcmp p.bytes s.objName.bytes = 0) =
      true ↔ s.objName ∈ w.hashtable (pathKey jhash random s.objName) := by
    rw [Table.lookup, List.any_eq_true]
    constructor
    · rintro ⟨y, hy, heq⟩
      exact strcmp_eq_zero.mp (of_decide_eq_true heq) ▸ hy
    · exact fun h => ⟨_, h, decide_eq_true (strcmp_eq_zero.mpr rfl)⟩
  rw [← hlook, Fac.queryWhitelistPath]
  split_ifs with h
  · exact iff_of_true rfl h
  · exact iff_of_false (by decide) h

/-- What there is to know of the table. -/
theorem tracksPaths_iff : TracksPaths jhash random w S ↔
    w.hashtable.Placed (pathKey jhash random) ∧ w.hashtable.contents = S ∧
      w.objCount = size hashChains w.hashtable ∧ ∀ x ∈ S, x.strlen < whitelistPathLen := by
  constructor
  · intro h
    refine ⟨⟨fun {i x} hx => ?_, h.once⟩, h.stored, h.count, h.whole⟩
    -- the query finds it in the chain of its key, and it is in no other
    have hmem : x ∈ S := h.stored ▸ ⟨i, hx⟩
    have hquery := (query_iff _).mp ((h.query ⟨CStr.empty, x, Digest.zero⟩).mpr hmem)
    exact h.chain hquery hx
  · rintro ⟨hplaced, hstored, hcount, hwhole⟩
    refine ⟨fun s => ?_, hstored, fun hi hj => ?_, hplaced.nodup, hcount, hwhole⟩
    · rw [query_iff, ← hplaced.mem_contents, hstored]
    · exact (hplaced.key_eq hi).symm.trans (hplaced.key_eq hj)

theorem tracksPaths_init (jhash : Jhash) (random : UInt32) : TracksPaths jhash random pathInit ∅ := by
  refine tracksPaths_iff.mpr ⟨Table.placed_empty, Table.contents_empty, ?_, fun _ h => absurd h ?_⟩
  · rw [pathInit, size_empty]
    rfl
  · exact Set.notMem_empty _

/-- A path of the set is found when it is hashed whole. -/
theorem TracksPaths.found (h : TracksPaths jhash random w S) (hmem : CStr.ofBytes p.data ∈ S)
    (hwhole : HashedWhole jhash random p) :
    CStr.ofBytes p.data ∈ w.hashtable ((whitelistPathOps jhash random).key (ioctlPathArg p.data)) := by
  obtain ⟨hplaced, hstored, -⟩ := tracksPaths_iff.mp h
  rw [hwhole, ← hplaced.mem_contents, hstored]
  exact hmem

/-- What is found is a path of the set, hashed whole. -/
theorem TracksPaths.of_found (h : TracksPaths jhash random w S)
    (hfound : CStr.ofBytes p.data ∈ w.hashtable ((whitelistPathOps jhash random).key (ioctlPathArg p.data))) :
    CStr.ofBytes p.data ∈ S ∧ HashedWhole jhash random p := by
  obtain ⟨hplaced, hstored, -⟩ := tracksPaths_iff.mp h
  exact ⟨hstored ▸ ⟨_, hfound⟩, (hplaced.key_eq hfound).symm⟩

/-! ### One request -/

theorem exists_pathStep_iff {r : PathRequest} {out : PathTable × ℤ}
    (h : pathRequest jhash random w r = some out) :
    (∃ s', pathStep jhash random (w, S) r = some s' ∧ TracksPaths jhash random s'.1 s'.2) ↔
      TracksPaths jhash random out.1 (pathSpec S r out.2) := by
  rw [pathStep, h, Option.map_some]
  constructor
  · rintro ⟨s', hs', ht⟩
    obtain rfl := Option.some.inj hs'
    exact ht
  · exact fun ht => ⟨_, rfl, ht⟩

theorem not_exists_pathStep {r : PathRequest} (h : pathRequest jhash random w r = none) :
    ¬ ∃ s', pathStep jhash random (w, S) r = some s' ∧ TracksPaths jhash random s'.1 s'.2 := by
  rintro ⟨s', hs', -⟩
  rw [pathStep, h] at hs'
  cases hs'

/-- The table stays the set when nothing is done. -/
theorem TracksPaths.same_iff {S' : Set CStr} (h : TracksPaths jhash random w S) :
    TracksPaths jhash random w S' ↔ S = S' := by
  constructor
  · exact fun h' => h.stored.symm.trans h'.stored
  · rintro rfl
    exact h

/-- **A new path in its chain.** -/
theorem TracksPaths.push (h : TracksPaths jhash random w S) (hmem : x ∉ S) (hlt : x.strlen < whitelistPathLen) :
    TracksPaths jhash random ⟨w.hashtable.push (pathKey jhash random x) x, w.objCount + 1⟩ (insert x S) := by
  obtain ⟨hplaced, hstored, hcount, hshort⟩ := tracksPaths_iff.mp h
  refine tracksPaths_iff.mpr ⟨hplaced.push (hstored ▸ hmem), ?_, ?_, fun y hy => ?_⟩
  · rw [Table.contents_push, hstored]
  · have hsize := size_push (T := w.hashtable) (masked_mem_hashChains (jhash x.bytes random)) x
    change w.objCount + 1 = (size hashChains (w.hashtable.push (pathKey jhash random _) _) : ℤ)
    rw [pathKey, stringHashKey, hsize, hcount]
    rfl
  · rcases Set.mem_insert_iff.mp hy with rfl | hy
    · exact hlt
    · exact hshort y hy

/-- **An entry that is put** keeps the table a set with the path just when the path is new, hashed whole and
short enough. -/
theorem TracksPaths.push_iff (h : TracksPaths jhash random w S)
    (hnew : CStr.ofBytes p.data ∉ w.hashtable ((whitelistPathOps jhash random).key (ioctlPathArg p.data))) :
    TracksPaths jhash random ⟨w.hashtable.push ((whitelistPathOps jhash random).key (ioctlPathArg p.data))
        ((whitelistPathOps jhash random).entry (ioctlPathArg p.data)), w.objCount + 1⟩
        (insert (CStr.ofBytes p.data) S) ↔
      HashedWhole jhash random p ∧ CStr.ofBytes p.data ∉ S ∧
        (CStr.ofBytes p.data).strlen < whitelistPathLen := by
  rw [tracksPaths_iff]
  constructor
  · rintro ⟨hplaced', -, -, hshort'⟩
    have hlt := hshort' _ (Set.mem_insert _ S)
    have hkey := hplaced'.key_eq (Table.mem_push.mpr (.inl ⟨rfl, rfl⟩))
    rw [pathEntry_eq hlt] at hkey
    have hwhole : HashedWhole jhash random p := hkey.symm
    exact ⟨hwhole, fun hmem => hnew (h.found hmem hwhole), hlt⟩
  · rintro ⟨hwhole, hmem, hlt⟩
    have hkey : (whitelistPathOps jhash random).key (ioctlPathArg p.data) = _ := hwhole
    rw [pathEntry_eq hlt, hkey]
    exact tracksPaths_iff.mp (h.push hmem hlt)

/-- **An entry that is unlinked** takes its path out of the set. -/
theorem TracksPaths.erase (h : TracksPaths jhash random w S)
    (hfound : CStr.ofBytes p.data ∈ w.hashtable ((whitelistPathOps jhash random).key (ioctlPathArg p.data))) :
    TracksPaths jhash random ⟨w.hashtable.eraseFirst ((whitelistPathOps jhash random).key (ioctlPathArg p.data))
        fun x => (whitelistPathOps jhash random).hit x (ioctlPathArg p.data), w.objCount - 1⟩
        (S \ {CStr.ofBytes p.data}) := by
  obtain ⟨hplaced, hstored, hcount, hshort⟩ := tracksPaths_iff.mp h
  have hkey : pathKey jhash random (CStr.ofBytes p.data) = _ := hplaced.key_eq hfound
  refine tracksPaths_iff.mpr ⟨hplaced.eraseFirst, ?_, ?_, fun x hx => hshort x hx.1⟩
  · rw [← hkey, hplaced.contents_eraseFirst fun y _ => pathHit_iff, hstored]
  · have hlook := pathFound_iff.mpr hfound
    have hsize := size_eraseFirst ((whitelistPathOps jhash random).key_mem (ioctlPathArg p.data)) hlook
    have hchains : (whitelistPathOps jhash random).chains = hashChains := rfl
    rw [hchains] at hsize
    change w.objCount - 1 = (size hashChains (w.hashtable.eraseFirst _ _) : ℤ)
    omega

/-- An addition whose argument is copied. -/
theorem pathRequest_add (href : ¬ Refused p) (hends : Ends p) : pathRequest jhash random w (.add p) =
    some (if (whitelistPathOps jhash random).found w.hashtable (ioctlPathArg p.data) then (w, 0)
      else if p.kzalloc 0 = false then (w, 0)
      else (⟨w.hashtable.push ((whitelistPathOps jhash random).key (ioctlPathArg p.data))
        ((whitelistPathOps jhash random).entry (ioctlPathArg p.data)), w.objCount + 1⟩, 0)) := by
  rw [pathRequest, ioctlPathAdd, takePath_ok href hends]
  rfl

/-- A deletion whose argument is copied. -/
theorem pathRequest_del (href : ¬ Refused p) (hends : Ends p) : pathRequest jhash random w (.del p) =
    some (if (whitelistPathOps jhash random).found w.hashtable (ioctlPathArg p.data) then
        (⟨w.hashtable.eraseFirst ((whitelistPathOps jhash random).key (ioctlPathArg p.data))
          fun x => (whitelistPathOps jhash random).hit x (ioctlPathArg p.data), w.objCount - 1⟩, 0)
      else (w, 0)) := by
  rw [pathRequest, ioctlPathDel, takePath_ok href hends]
  rfl

/-- A refused request does nothing, one whose path does not end faults: what is left to say is about the
others. -/
theorem served_iff_of_taken {r : PathRequest} (hr : r = .add p ∨ r = .del p) {C : Prop}
    (h : TracksPaths jhash random w S)
    (htaken : ¬ Refused p → Ends p → (C ↔ ∃ s', pathStep jhash random (w, S) r = some s' ∧
      TracksPaths jhash random s'.1 s'.2)) :
    Refused p ∨ Ends p ∧ C ↔
      ∃ s', pathStep jhash random (w, S) r = some s' ∧ TracksPaths jhash random s'.1 s'.2 := by
  by_cases href : Refused p
  · have hreq : pathRequest jhash random w r = some (w, -1) := by
      rcases hr with rfl | rfl
      · rw [pathRequest, ioctlPathAdd, takePath_refused href]
        rfl
      · rw [pathRequest, ioctlPathDel, takePath_refused href]
        rfl
    rw [exists_pathStep_iff hreq]
    exact iff_of_true (.inl href) h
  by_cases hends : Ends p
  · rw [or_iff_right href, and_iff_right hends]
    exact htaken href hends
  · have hreq : pathRequest jhash random w r = none := by
      rcases hr with rfl | rfl
      · rw [pathRequest, ioctlPathAdd, takePath_fault href hends]
        rfl
      · rw [pathRequest, ioctlPathDel, takePath_fault href hends]
        rfl
    exact iff_of_false (fun hor => hor.elim href fun hs => hends hs.1) (not_exists_pathStep hreq)

/-- **An addition keeps the table a set just when it is served.** -/
theorem add_served_iff (h : TracksPaths jhash random w S) :
    Served jhash random (w, S) (.add p) ↔
      ∃ s', pathStep jhash random (w, S) (.add p) = some s' ∧ TracksPaths jhash random s'.1 s'.2 := by
  refine served_iff_of_taken (.inl rfl) h fun href hends => ?_
  rw [exists_pathStep_iff (pathRequest_add href hends)]
  by_cases hfound : (whitelistPathOps jhash random).found w.hashtable (ioctlPathArg p.data) = true
  · -- it is there
    obtain ⟨hmem, hwhole⟩ := h.of_found (pathFound_iff.mp hfound)
    have hspec : pathSpec S (.add p) 0 = S := Set.insert_eq_of_mem hmem
    rw [if_pos hfound, hspec]
    exact iff_of_true ⟨fun _ => .inl hwhole, fun hn => absurd hmem hn⟩ h
  have hnew := fun hin => hfound (pathFound_iff.mpr hin)
  rw [if_neg hfound]
  cases halloc : p.kzalloc 0 with
  | false =>
      have hspec : S = pathSpec S (.add p) 0 ↔ CStr.ofBytes p.data ∈ S :=
        eq_comm.trans Set.insert_eq_self
      rw [if_pos rfl, h.same_iff, hspec]
      constructor
      · exact fun hs => by_contra fun hn => Bool.false_ne_true (hs.2 hn).2.1
      · exact fun hmem => ⟨fun _ => .inr rfl, fun hn => absurd hmem hn⟩
  | true =>
      rw [if_neg Bool.noConfusion]
      refine Iff.trans ?_ (h.push_iff hnew).symm
      constructor
      · rintro ⟨hthere, hnot⟩
        have hmem : CStr.ofBytes p.data ∉ S := fun hin =>
          hnew (h.found hin ((hthere hin).resolve_right Bool.noConfusion))
        exact ⟨(hnot hmem).1, hmem, (hnot hmem).2.2⟩
      · rintro ⟨hwhole, hmem, hlt⟩
        exact ⟨fun _ => .inl hwhole, fun _ => ⟨hwhole, rfl, hlt⟩⟩

/-- **A deletion keeps the table a set just when it is served.** -/
theorem del_served_iff (h : TracksPaths jhash random w S) :
    Served jhash random (w, S) (.del p) ↔
      ∃ s', pathStep jhash random (w, S) (.del p) = some s' ∧ TracksPaths jhash random s'.1 s'.2 := by
  refine served_iff_of_taken (.inr rfl) h fun href hends => ?_
  rw [exists_pathStep_iff (pathRequest_del href hends)]
  by_cases hfound : (whitelistPathOps jhash random).found w.hashtable (ioctlPathArg p.data) = true
  · rw [if_pos hfound]
    exact iff_of_true (fun _ => (h.of_found (pathFound_iff.mp hfound)).2) (h.erase (pathFound_iff.mp hfound))
  · have hspec : S = pathSpec S (.del p) 0 ↔ CStr.ofBytes p.data ∉ S :=
      eq_comm.trans (sdiff_eq_left.trans Set.disjoint_singleton_right)
    rw [if_neg hfound, h.same_iff, hspec]
    constructor
    · exact fun hwhole hmem => hfound (pathFound_iff.mpr (h.found hmem (hwhole hmem)))
    · exact fun hn hmem => absurd hmem hn

end Commands

/-- A path of 512 bytes, with its zero byte. -/
def longPath : PolicyParam := ⟨true, true, true, List.replicate 512 97 ++ [0], fun _ => true⟩

theorem strlen_longPath : (CStr.ofBytes longPath.data).strlen = 512 := by
  have hzero : (0 : UInt8) ∉ List.replicate 512 97 := fun h => absurd (List.eq_of_mem_replicate h) (by decide)
  have hcstr : cstr longPath.data = List.replicate 512 97 ++ cstr [0] := cstr_append_of_notMem hzero [0]
  have hlen : (cstr longPath.data).length = 512 := by
    rw [hcstr, List.length_append, List.length_replicate]
    rfl
  exact hlen

end Whitelist
end TsbAgent
