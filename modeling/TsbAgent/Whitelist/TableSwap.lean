/-
# Cleaning up a swapped table

Three policies of the kernel are reloaded in one way: read the count of the entries, build a new
table from the file, swap the tables under the write lock, and then free the old table with a loop
that goes on until the count it has read is used up.

| table | reload | additions and deletions |
| --- | --- | --- |
| program whitelist (`hash_whitelist.c`) | `load_whitelist`, `whitelist_tmp_clean` | `whitelist_add`, `whitelist_del` |
| path whitelist (`hash_whitelist_path.c`) | `load_whitelist_path`, `whitelist_path_tmp_clean` | the two `ioctl` commands |
| critical files (`hash_critical_confile.c`) | `load_critical_confile`, `critical_confile_tmp_clean` | none |

The count is read long before the write lock is taken.  `table_swap_cleanup_iff` says what that
means for each of them (`TsbAgent.Lib.Counted` has the argument): an addition in between, without a deletion to
make up for it, and `…_tmp_clean` never returns.
-/

import TsbAgent.Whitelist.CriticalConfile
import TsbAgent.Whitelist.Sections

namespace TsbAgent
namespace Whitelist

open Libc Chained Run Counted

/-! ### The tables -/

/-- `PATH_LEN` of `hash_whitelist_path.h`. -/
def whitelistPathLen : ℕ := 512

/-- A path as the functions of the path whitelist get it, with the number of its bytes that go into
the key and into the entry. -/
structure PathArg where
  pBuff : Bytes
  len : ℕ

/-- The argument of `ioctl_fac_whitelist_path_add_policy` and `ioctl_fac_whitelist_path_del_policy`. -/
def ioctlPathArg (data : Bytes) : PathArg :=
  ⟨data, if data.length > whitelistPathLen then whitelistPathLen - 1 else (cstr data).length⟩

/-- The argument of `whitelist_path_tmp_add`. -/
def tmpPathArg (path : CStr) : PathArg :=
  ⟨path.bytes, if path.strlen + 1 > whitelistPathLen then whitelistPathLen - 1 else path.strlen⟩

/-- The path whitelist: the entry is cut to its length, the comparison is not. -/
def whitelistPathOps (jhash : Jhash) (random : UInt32) : Ops UInt32 CStr PathArg where
  chains := hashChains
  key b := stringHashKey jhash random (b.pBuff.take b.len)
  entry b := CStr.ofBytes (b.pBuff.take b.len)
  hit p b := strcmp p.bytes b.pBuff = 0
  key_mem _ := masked_mem_hashChains _

/-- The critical files. -/
def criticalConfileOps (jhash : Jhash) (random : UInt32) :
    Ops UInt32 CriticalConfileDigest CriticalConfileDigest where
  chains := hashChains
  key b := criticalConfilePathHashKey jhash random b.name
  entry := id
  hit u b := criticalConfilePathHashCmp u b.digest b.name = 0
  key_mem _ := masked_mem_hashChains _

section Build

variable {jhash : Jhash} {random : UInt32}

end Build

/-- Where no call touches the table, nothing is added or deleted. -/
theorem drift_of_no_calls {β θ : Type} {es : List (SwapEvent β θ)} (h : ∀ c, .call c ∉ es) : drift es = 0 := by
  have hgen : ∀ d : ℤ, d = 0 → es.foldl driftStep d = 0 := by
    induction es with
    | nil => exact fun _ hd => hd
    | cons e es ih =>
        intro d hd
        have hrest : ∀ c, .call c ∉ es := fun c hc => h c (List.mem_cons_of_mem _ hc)
        refine ih hrest _ ?_
        cases e with
        | call c => exact absurd List.mem_cons_self (h c)
        | readCount => rfl
        | swap bs => exact hd
        | pass => exact hd
  exact hgen 0 rfl

/-- **When the cleanup of a swapped table ends.**  In every interleaving of the sections of any
number of additions and deletions with a thread that reloads the table, again and again: after every
swap the count that the cleanup uses is the number of entries in the old table, and the cleanup ends
with every one of them freed, if and only if between the reading of the count and the swap as many
entries were put into the table as were deleted from it.  For the critical files, to which nothing
is added and from which nothing is deleted but by a reload, the cleanup always ends. -/
theorem table_swap_cleanup_iff (jhash : Jhash) (random randomPath randomCritical : UInt32) {θ : Type}
    [DecidableEq θ] :
    (∀ (es : List (SwapEvent WhitelistDigest θ)) us s,
      run (swapStep (whitelistOps jhash random)) swapInit (es ++ [.swap us]) = some s →
        (Flushes (whitelistOps jhash random) s ↔ drift es = 0)) ∧
    (∀ (es : List (SwapEvent PathArg θ)) bs s,
      run (swapStep (whitelistPathOps jhash randomPath)) swapInit (es ++ [.swap bs]) = some s →
        (Flushes (whitelistPathOps jhash randomPath) s ↔ drift es = 0)) ∧
    (∀ (es : List (SwapEvent CriticalConfileDigest θ)) us s, (∀ c, .call c ∉ es) →
      run (swapStep (criticalConfileOps jhash randomCritical)) swapInit (es ++ [.swap us]) = some s →
        Flushes (criticalConfileOps jhash randomCritical) s) := by
  refine ⟨fun es us s h => flushes_iff_drift h, fun es bs s h => flushes_iff_drift h, ?_⟩
  intro es us s hcalls h
  exact (flushes_iff_drift h).mpr (drift_of_no_calls hcalls)

/-- A reload of an empty whitelist with an addition and a deletion before the count is read. -/
theorem table_swap_cleanup_idle :
    ∃ s : SwapState UInt32 WhitelistDigest WhitelistDigest ℕ,
      run (swapStep (whitelistOps (fun _ _ => 0) 0)) swapInit
          ([.call (.look 0 onePair false), .call (.insert 0), .readCount] ++ [.swap []]) = some s ∧
        Flushes (whitelistOps (fun _ _ => 0) 0) s := by
  refine ⟨_, rfl, ?_⟩
  refine ((table_swap_cleanup_iff (fun _ _ => 0) 0 0 0).1
    [.call (.look 0 onePair false), .call (.insert 0), .readCount] [] _ rfl).mpr ?_
  decide

/-- **An addition between the count and the swap.**  `load_whitelist` reads the count `0`, a call of
`whitelist_add` puts an entry, the tables are swapped: the cleanup counts down from `0` and never
comes back to it. -/
theorem table_swap_cleanup_stuck :
    ¬ ∀ (jhash : Jhash) (random : UInt32) (es : List (SwapEvent WhitelistDigest ℕ)) us s,
      run (swapStep (whitelistOps jhash random)) swapInit (es ++ [.swap us]) = some s →
        Flushes (whitelistOps jhash random) s := by
  intro hall
  have h := hall (fun _ _ => 0) 0 [.readCount, .call (.look 0 onePair false), .call (.insert 0)] [] _ rfl
  have hdrift : drift [.readCount, .call (.look 0 onePair false), .call (.insert 0)] = 0 :=
    (flushes_iff_drift rfl).mp h
  exact absurd hdrift (by decide)

end Whitelist
end TsbAgent
