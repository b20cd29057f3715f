import Ucore.Sfs.Outcomes
import Ucore.Vmm.CopyString

/-!
# Reading and writing from user memory (`lab8/kern/fs/sysfile.c`, `kern/mm/vmm.c`)

`sysfile_read` and `sysfile_write` move the bytes through a kernel buffer of 4096 bytes.  `Sys` has the files, the
address space of `current` and what its user sees in memory; the buffer lies elsewhere.  `kmalloc` gives the
buffer, with any bytes in it, or none.

The pages of a range that `user_mem_check` accepts are taken as mapped.  It looks at the areas only, and an area may
have pages that are not mapped (the lower ones of the stack): there `memcpy` faults, and that is left out.
-/

namespace Ucore.Sysfile

open Memory Sfs
open Vmm (MmStruct Uintptr userMemCheck)

variable {ι δ : Type}

def IOBUF_SIZE : ℕ := 4096

structure Sys (ι δ : Type) where
  files : Files ι δ
  mm : Option MmStruct
  mem : Vmm.Memory

/-- A panic of the file system, or the failure of `assert(len >= alen)`. -/
inductive Panic
  | fs (p : Sfs.Panic)
  | alen

/-- `memcpy(dst, buffer, n)` from a kernel buffer. -/
def store (mem : Vmm.Memory) (dst : Uintptr) (buffer : Mem) (n : ℕ) : Vmm.Memory := fun a =>
  if (a - dst).toNat < n then buffer (a - dst).toNat else mem a

/-- `memcpy(buffer, src, n)` into a kernel buffer. -/
def load (mem : Vmm.Memory) (src : Uintptr) (buffer : Mem) (n : ℕ) : Mem := fun i =>
  if i < n then mem (src + BitVec.ofNat 64 i) else buffer i

/-- `copy_to_user`. -/
def copyToUser (mm : Option MmStruct) (mem : Vmm.Memory) (dst : Uintptr) (buffer : Mem) (len : ℕ) :
    Bool × Option MmStruct × Vmm.Memory :=
  match userMemCheck mm dst (BitVec.ofNat 64 len) true with
  | (false, mm) => (false, mm, mem)
  | (true, mm) => (true, mm, store mem dst buffer len)

/-- `copy_from_user`. -/
def copyFromUser (mm : Option MmStruct) (mem : Vmm.Memory) (buffer : Mem) (src : Uintptr) (len : ℕ)
    (writable : Bool) : Bool × Option MmStruct × Mem :=
  match userMemCheck mm src (BitVec.ofNat 64 len) writable with
  | (false, mm) => (false, mm, buffer)
  | (true, mm) => (true, mm, load mem src buffer len)

/-- `file_testfd`. -/
def fileTestfd (s : Files ι δ) (d : δ) (readable writable : Bool) : Bool :=
  match s.fd d with
  | none => false
  | some file => !(readable && !file.readable) && !(writable && !file.writable)

section

variable [DecidableEq ι] [DecidableEq δ]

/-- The loop of `sysfile_read`: `ret`, `copied` and the state at `out`. -/
def readLoop (s : Sys ι δ) (d : δ) (buffer : Mem) (base : Uintptr) (len copied : ℕ) :
    Except Panic (ℤ × ℕ × Sys ι δ) :=
  if len = 0 then .ok (0, copied, s)
  else
    match fileRead s.files d buffer (UInt64.ofNat (min IOBUF_SIZE len)) with
    | .error p => .error (.fs p)
    | .ok (ret, alen, buffer, files) =>
      if alen = 0 then .ok (ret, copied, { s with files := files })
      else
        match copyToUser s.mm s.mem base buffer alen with
        | (false, mm, mem) => .ok (if ret = 0 then -E_INVAL else ret, copied, ⟨files, mm, mem⟩)
        | (true, mm, mem) =>
          if len < alen then .error .alen
          else if ret ≠ 0 then .ok (ret, copied + alen, ⟨files, mm, mem⟩)
          else readLoop ⟨files, mm, mem⟩ d buffer (base + BitVec.ofNat 64 alen) (len - alen) (copied + alen)
termination_by len
decreasing_by omega

/-- The loop of `sysfile_write`. -/
def writeLoop (s : Sys ι δ) (d : δ) (buffer : Mem) (base : Uintptr) (len copied : ℕ) :
    Except Panic (ℤ × ℕ × Sys ι δ) :=
  if len = 0 then .ok (0, copied, s)
  else
    match copyFromUser s.mm s.mem buffer base (min IOBUF_SIZE len) false with
    | (false, mm, _) => .ok (-E_INVAL, copied, { s with mm := mm })
    | (true, mm, buffer) =>
      match fileWrite s.files d buffer (UInt64.ofNat (min IOBUF_SIZE len)) with
      | .error p => .error (.fs p)
      | .ok (ret, alen, files) =>
        if alen = 0 then .ok (ret, copied, ⟨files, mm, s.mem⟩)
        else if len < alen then .error .alen
        else if ret ≠ 0 then .ok (ret, copied + alen, ⟨files, mm, s.mem⟩)
        else writeLoop ⟨files, mm, s.mem⟩ d buffer (base + BitVec.ofNat 64 alen) (len - alen) (copied + alen)
termination_by len
decreasing_by omega

/-- What the call returns from `ret` and the `size_t` `copied`. -/
def returned (ret : ℤ) (copied : ℕ) : ℤ := if copied ≠ 0 then (copied : ℤ).bmod (2 ^ 32) else ret

/-- `sysfile_read`, with what `kmalloc` returns. -/
def sysfileRead (s : Sys ι δ) (kmalloc : Option Mem) (d : δ) (base : Uintptr) (len : UInt64) :
    Except Panic (ℤ × Sys ι δ) :=
  if len = 0 then .ok (0, s)
  else if fileTestfd s.files d true false = false then .ok (-E_INVAL, s)
  else
    match kmalloc with
    | none => .ok (-E_NO_MEM, s)
    | some buffer =>
      (readLoop s d buffer base len.toNat 0).map fun (ret, copied, s) => (returned ret copied, s)

/-- `sysfile_write`. -/
def sysfileWrite (s : Sys ι δ) (kmalloc : Option Mem) (d : δ) (base : Uintptr) (len : UInt64) :
    Except Panic (ℤ × Sys ι δ) :=
  if len = 0 then .ok (0, s)
  else if fileTestfd s.files d false true = false then .ok (-E_INVAL, s)
  else
    match kmalloc with
    | none => .ok (-E_NO_MEM, s)
    | some buffer =>
      (writeLoop s d buffer base len.toNat 0).map fun (ret, copied, s) => (returned ret copied, s)

end

end Ucore.Sysfile
