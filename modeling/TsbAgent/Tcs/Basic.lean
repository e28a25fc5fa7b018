/-
# What the policy updates of the TCS share

The errors of `tss-main/tcf/include/tcsapi/tcs_error.h`, and the way
`tss-main/tcs/tcsapi/tcsu` reads the packed structures it is given: a pointer is a
function from offsets to bytes, and `ntohs`, `ntohl` and `ntohll` read the big
endian fields behind it.  Nothing bounds the reads; the functions of the source
follow the numbers in the structure wherever they lead.

A return value is an `Option TssErr`: `TSS_SUCCESS` is `none`.
-/

import TsbAgent.Lib.Libc

namespace TsbAgent
namespace Tcs

open Libc

/-- The `TSS_ERR_` numbers that the updates return.  `tpcm` is a number that the TPCM, its
driver or the kernel gave. -/
inductive TssErr
  | parameter
  | nomem
  | itemNotFound
  | file
  | read
  | write
  | verify
  | sem
  | semTimeout
  | invalidUid
  | badData
  | verifyReplay
  | invalidAction
  | invalidPolicy
  | tpcmId
  | adminAuth
  | recreate
  | inputExceed
  | notSupport
  | tpcm (r : ℤ)
deriving DecidableEq

/-- The memory behind a pointer. -/
abbrev Mem := ℕ → UInt8

/-- `n` bytes of memory. -/
def Mem.bytes (m : Mem) (p n : ℕ) : Bytes := (List.range n).map fun i => m (p + i)

@[simp] theorem Mem.length_bytes (m : Mem) (p n : ℕ) : (m.bytes p n).length = n := by
  simp [Mem.bytes]

/-- `ntohs` of the field at `p`, as `int` arithmetic uses it. -/
def Mem.ntohs (m : Mem) (p : ℕ) : UInt32 := (m p).toUInt32 <<< 8 ||| (m (p + 1)).toUInt32

/-- `ntohl` of the field at `p`. -/
def Mem.ntohl (m : Mem) (p : ℕ) : UInt32 := m.ntohs p <<< 16 ||| m.ntohs (p + 2)

/-- `ntohll` of the field at `p`. -/
def Mem.ntohll (m : Mem) (p : ℕ) : UInt64 :=
  (m.ntohl p).toUInt64 <<< 32 ||| (m.ntohl (p + 4)).toUInt64

/-- `HTTC_ALIGN_SIZE(len, 4)`, in 32 bits. -/
def alignSize (len : UInt32) : UInt32 := if len % 4 = 0 then len else len + 4 - len % 4

end Tcs
end TsbAgent
