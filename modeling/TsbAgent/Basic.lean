/-
# What the kernel modules share

`tsb/kernel/include/common.h`, `sec_domain.h` and the error numbers the hooks
return.  A digest is the `LEN_HASH` bytes of an SM3 value, any bytes at all; a
name in a `struct sec_domain` is a path cut to the `LEN_NAME_MAX` bytes of its
array (`prepare_sec_domain`, `access_control`).  A path of `LEN_NAME_MAX` bytes
or more fills the array without a terminator; the name is then the whole array
here, and `TsbAgent.Whitelist.Check` follows the string into the next field.
-/

import TsbAgent.Lib.Libc

namespace TsbAgent

open Libc

/-- `LEN_HASH`. -/
def lenHash : ℕ := 32

/-- `LEN_NAME_MAX`. -/
def lenNameMax : ℕ := 512

/-- An SM3 digest: `LEN_HASH` bytes, zero bytes included. -/
abbrev Digest := { b : Bytes // b.length = lenHash }

/-- The digest after `memset(digest, 0, LEN_HASH)`. -/
def Digest.zero : Digest := ⟨List.replicate lenHash 0, List.length_replicate⟩

/-- The digest of the sample programs. -/
def Digest.ones : Digest := ⟨List.replicate lenHash 1, List.length_replicate⟩

/-- `memcmp(a, b, LEN_HASH) == 0`: all 32 bytes agree. -/
theorem Digest.memcmp_eq_zero {a b : Digest} : memcmp lenHash a.1 b.1 = 0 ↔ a = b := by
  rw [Libc.memcmp_eq_zero a.2.ge b.2.ge, List.take_of_length_le a.2.le,
    List.take_of_length_le b.2.le, Subtype.ext_iff]

/-- `strncmp(a, b, LEN_HASH) == 0`: the bytes before the first zero byte agree. -/
theorem Digest.strncmp_eq_zero {a b : Digest} :
    strncmp lenHash a.1 b.1 = 0 ↔ cstr a.1 = cstr b.1 := by
  rw [Libc.strncmp_eq_zero, List.take_of_length_le a.2.le, List.take_of_length_le b.2.le]

def eacces : ℤ := 13
def eexist : ℤ := 17
def einval : ℤ := 22
def enomem : ℤ := 12

/-- The fields of `struct sec_domain` the decisions read. -/
structure SecDomain where
  subName : CStr
  objName : CStr
  subHash : Digest

/-- The copy of a path into `sub_name` or `obj_name`. -/
def secName (path : CStr) : CStr := path.take lenNameMax

/-- `jhash(key, length, initval)` of the kernel; the key carries its length. -/
abbrev Jhash := Bytes → UInt32 → UInt32

end TsbAgent
