import Ucore.Cow.Bytes
import Ucore.Lib.Memory
import Ucore.Vmm.Check

/-!
# Loading a program (`load_icode` of `lab8/kern/process/proc.c`)

`load_icode` maps the segments of an ELF file, fills them from the file and with zeros, and puts the
arguments on a new stack.  The page tables and frames are those of lab5: `get_pte` and `page_insert` are
the same there.  The new address space has a number, and its areas are kept by the functions of lab8.

The file is a list of bytes; `Env` has what the kernel finds when it asks for memory, and what a read
meets besides the file.  An address space that is taken down again is `none`: what `exit_mmap` does to
its frames is left out, and so are `p_pa`, `p_align` and the fields of `struct elfhdr` that are not read.
-/

namespace Ucore.Exec

open Cow (State Perm PTE_V PTE_R PTE_W PTE_X PTE_U PTE_USER Answers has allocPage freePage
  pageInsert getPte putPage E_NO_MEM)
open Memory (Mem read16 read32 read32_congr)
open Vmm (Uintptr MmStruct PGSIZE VM_READ VM_WRITE VM_EXEC VM_STACK roundDown mmMap)

def E_INVAL_ELF : ℤ := 8

def USTACKTOP : Uintptr := 0x80000000

def USTACKSIZE : Uintptr := 256 * PGSIZE

def ELF_MAGIC : ℕ := 0x464C457F

def ELF_PT_LOAD : ℕ := 1

def ELF_PF_X : BitVec 32 := 1

def ELF_PF_W : BitVec 32 := 2

def ELF_PF_R : BitVec 32 := 4

def EXEC_MAX_ARG_NUM : ℕ := 32

def EXEC_MAX_ARG_LEN : ℕ := 4095

/-! ### ELF files -/

/-- `struct elfhdr` -/
structure Elfhdr where
  eMagic : ℕ
  eEntry : Uintptr
  ePhoff : Uintptr
  ePhnum : ℕ

/-- `struct proghdr` -/
structure Proghdr where
  pType : ℕ
  pFlags : BitVec 32
  pOffset : Uintptr
  pVa : Uintptr
  pFilesz : Uintptr
  pMemsz : Uintptr

def sizeofElfhdr : ℕ := 64

def sizeofProghdr : ℕ := 56

def read64 (m : Mem) (a : ℕ) : Uintptr := BitVec.ofNat 64 (read32 m a + 2 ^ 32 * read32 m (a + 4))

theorem read64_congr {m m' : Mem} {n : ℕ} (h : ∀ i, n ≤ i → i < n + 8 → m' i = m i) :
    read64 m' n = read64 m n := by
  rw [read64, read64, read32_congr fun i hlo hhi => h i hlo (by omega),
    read32_congr fun i hlo hhi => h i (by omega) (by omega)]

def decodeElfhdr (m : Mem) : Elfhdr where
  eMagic := read32 m 0
  eEntry := read64 m 24
  ePhoff := read64 m 32
  ePhnum := read16 m 56

def decodeProghdr (m : Mem) : Proghdr where
  pType := read32 m 0
  pFlags := BitVec.ofNat 32 (read32 m 4)
  pOffset := read64 m 8
  pVa := read64 m 16
  pFilesz := read64 m 32
  pMemsz := read64 m 40

/-- The bytes of the file from `offset` on. -/
def fileAt (file : List UInt8) (offset : ℕ) : Mem := fun i => file.getD (offset + i) 0

/-! ### What the kernel finds -/

/-- What a call of `load_icode_read` meets: the result of `sysfile_seek`, and the error of
`sysfile_read` or how many bytes it copies at most. -/
structure Io where
  seek : ℤ
  read : Except { ret : ℤ // ret < 0 } ℕ

/-- The file, and the answers to the calls of each kind. -/
structure Env where
  file : List UInt8
  mmCreate : Bool
  setupPgdir : Bool
  io : ℕ → Io
  vma : ℕ → Bool
  answers : ℕ → Answers

inductive Panic
  /-- `current->mm` must be empty -/
  | notEmpty
  | vmm (p : Vmm.Panic)
  /-- the assertion of `pgdir_alloc_page` -/
  | pageRef
  /-- no page of the segment has been allocated yet -/
  | nullPage
  /-- the page is cleared beyond its end -/
  | overrun
  /-- the assertion on `start` and `end` -/
  | partialPage
  /-- the assertion on the pages of the stack -/
  | stackPage
  /-- a loop takes more turns than there are bytes -/
  | endless
  deriving DecidableEq

/-- How the building of the address space ends early: by a failed assertion, or by `goto` a cleanup with
`ret`. -/
inductive Stop
  | panic (p : Panic)
  | cleanup (ret : ℤ)
  deriving DecidableEq

/-! ### Reading -/

/-- `sysfile_read` after `sysfile_seek`: the result, and what it has copied. -/
def sysfileRead (io : Io) (file : List UInt8) (len offset : ℕ) : ℤ × List UInt8 :=
  match io.read with
  | .error ret => (ret, [])
  | .ok limit =>
    let bytes := ((file.drop offset).take len).take limit
    (bytes.length, bytes)

/-- `sysfile_seek`, which takes no offset below zero. -/
def sysfileSeek (io : Io) (offset : ℤ) : ℤ := if offset < 0 then -Cow.E_INVAL else io.seek

/-- `load_icode_read`: the result, and the bytes that are read. -/
def loadIcodeRead (io : Io) (file : List UInt8) (len : ℕ) (offset : ℤ) : ℤ × List UInt8 :=
  if sysfileSeek io offset ≠ 0 then (sysfileSeek io offset, [])
  else
    let (ret, bytes) := sysfileRead io file len offset.toNat
    if ret ≠ len then (if ret < 0 then ret else -1, bytes) else (0, bytes)

/-! ### Pages -/

/-- The address space so far, with the number of calls of each kind, and `page`. -/
structure Image where
  mm : MmStruct
  pages : State
  reads : ℕ
  vmas : ℕ
  allocs : ℕ
  page : Option ℕ

/-- `pgdir_alloc_page`; `none` for `NULL`. -/
def pgdirAllocPage (answers : Answers) (a p : ℕ) (perm : Perm) (s : State) :
    Except Panic (Option ℕ × State) :=
  match allocPage answers.page s with
  | none => .ok (none, s)
  | some (page, s) =>
    let (ret, s) := pageInsert answers.table a page p perm s
    if ret ≠ 0 then .ok (none, freePage page s)
    else if s.ref page = 1 then .ok (some page, s) else .error .pageRef

/-- The page of an address; the three levels of the page table take 27 bits of its number. -/
def pageOf (la : Uintptr) : ℕ := la.toNat / 4096 % 2 ^ 27

/-! ### Segments -/

/-- The flags of the area of a segment. -/
def segVmFlags (pFlags : BitVec 32) : BitVec 32 :=
  let vmFlags := 0
  let vmFlags := if pFlags &&& ELF_PF_X ≠ 0 then vmFlags ||| VM_EXEC else vmFlags
  let vmFlags := if pFlags &&& ELF_PF_W ≠ 0 then vmFlags ||| VM_WRITE else vmFlags
  if pFlags &&& ELF_PF_R ≠ 0 then vmFlags ||| VM_READ else vmFlags

/-- The permissions of the pages of a segment. -/
def segPerm (pFlags : BitVec 32) : Perm :=
  let perm := PTE_U ||| PTE_V
  let perm := if pFlags &&& ELF_PF_X ≠ 0 then perm ||| PTE_X else perm
  let perm := if pFlags &&& ELF_PF_W ≠ 0 then perm ||| (PTE_W ||| PTE_R) else perm
  if pFlags &&& ELF_PF_R ≠ 0 then perm ||| PTE_R else perm

/-- The variables of the loops of a segment. -/
structure Fill extends Image where
  start : Uintptr
  la : Uintptr
  filepos : ℤ
  ret : ℤ

variable (env : Env) (a : ℕ)

/-- The next page of a segment, and the part `[off, off + size)` of it that is to be filled. -/
def Fill.nextPage (perm : Perm) (stop : Uintptr) (x : Fill) :
    Except Stop (Fill × ℕ × Uintptr × Uintptr) :=
  match pgdirAllocPage (env.answers x.allocs) a (pageOf x.la) perm x.pages with
  | .error p => .error (.panic p)
  | .ok (none, _) => .error (.cleanup x.ret)
  | .ok (some page, pages) =>
    let off := x.start - x.la
    let size := PGSIZE - off
    let la := x.la + PGSIZE
    let size := if stop < la then size - (la - stop) else size
    .ok ({ x with pages := pages, allocs := x.allocs + 1, page := some page, la := la }, page, off, size)

/-- A turn of the loop that reads the segment. -/
def Fill.readTurn (perm : Perm) (stop : Uintptr) (x : Fill) : Except Stop Fill := do
  let (x, page, off, size) ← x.nextPage env a perm stop
  let (ret, bytes) := loadIcodeRead (env.io x.reads) env.file size.toNat x.filepos
  if ret ≠ 0 then .error (.cleanup ret)
  else .ok { x with
    pages := putPage page off.toNat bytes x.pages
    reads := x.reads + 1
    ret := ret
    start := x.start + size
    filepos := x.filepos + size.toNat }

/-- A turn of the loop that clears the rest. -/
def Fill.zeroTurn (perm : Perm) (stop : Uintptr) (x : Fill) : Except Stop Fill := do
  let (x, page, off, size) ← x.nextPage env a perm stop
  .ok { x with
    pages := putPage page off.toNat (List.replicate size.toNat 0) x.pages
    start := x.start + size }

/-- The loops; the number bounds the turns. -/
def Fill.loop (turn : Fill → Except Stop Fill) (stop : Uintptr) : ℕ → Fill → Except Stop Fill
  | 0, x => if x.start < stop then .error (.panic .endless) else .ok x
  | n + 1, x =>
    if x.start < stop then do
      let x ← turn x
      Fill.loop turn stop n x
    else .ok x

/-- The page that the file fills in part is cleared behind that.  Where the segment ends there, the next
loop has no turn. -/
def Fill.clearPartial (stop : Uintptr) (x : Fill) : Except Stop Fill :=
  if x.start < x.la then
    if x.start = stop then .ok x
    else
      let off := x.start + PGSIZE - x.la
      let size := PGSIZE - off
      let size := if stop < x.la then size - (x.la - stop) else size
      match x.page with
      | none => .error (.panic .nullPage)
      | some page =>
        let start := x.start + size
        if off.toNat + size.toNat > 4096 then .error (.panic .overrun)
        else if (stop < x.la ∧ start = stop) ∨ (stop ≥ x.la ∧ start = x.la) then
          .ok { x with
            pages := putPage page off.toNat (List.replicate size.toNat 0) x.pages
            start := start }
        else .error (.panic .partialPage)
  else .ok x

/-- The variables before the loops. -/
def Fill.ofSegment (ph : Proghdr) (s : Image) : Fill := { s with
  start := ph.pVa
  la := roundDown ph.pVa
  filepos := ph.pOffset.toInt
  ret := -E_NO_MEM }

/-- The loops of a segment. -/
def fillSegment (ph : Proghdr) (s : Image) : Except Stop Image := do
  let perm := segPerm ph.pFlags
  let stop := ph.pVa + ph.pFilesz
  let x ← Fill.loop (Fill.readTurn env a perm stop) stop ph.pFilesz.toNat (Fill.ofSegment ph s)
  let stop := ph.pVa + ph.pMemsz
  let x ← x.clearPartial stop
  let x ← Fill.loop (Fill.zeroTurn env a perm stop) stop ph.pMemsz.toNat x
  .ok x.toImage

/-- The body of the loop over the program headers. -/
def loadSegment (ph : Proghdr) (s : Image) : Except Stop Image :=
  if ph.pType ≠ ELF_PT_LOAD then .ok s
  else if ph.pFilesz > ph.pMemsz then .error (.cleanup (-E_INVAL_ELF))
  else if ph.pMemsz = 0 then .ok s
  else
    match mmMap (env.vma s.vmas) s.mm ph.pVa ph.pMemsz (segVmFlags ph.pFlags) with
    | .error p => .error (.panic (.vmm p))
    | .ok (ret, _, mm) =>
      if ret ≠ 0 then .error (.cleanup ret)
      else fillSegment env a ph { s with mm := mm, vmas := s.vmas + 1 }

/-- Where a program header is. -/
def Elfhdr.phoff (elf : Elfhdr) (i : ℕ) : Uintptr := elf.ePhoff + BitVec.ofNat 64 (i * sizeofProghdr)

/-- The loop over `n` program headers from `i` on. -/
def loadSegments (elf : Elfhdr) : ℕ → ℕ → Image → Except Stop Image
  | 0, _, s => .ok s
  | n + 1, i, s => do
    let (ret, bytes) := loadIcodeRead (env.io s.reads) env.file sizeofProghdr (elf.phoff i).toInt
    if ret ≠ 0 then .error (.cleanup ret)
    else
      let s ← loadSegment env a (decodeProghdr (fileAt bytes 0)) { s with reads := s.reads + 1 }
      loadSegments elf n (i + 1) s

/-! ### The stack -/

/-- The loop over the first pages of the stack, with `n` turns from `i` on. -/
def stackPages : ℕ → ℕ → Image → Except Stop Image
  | 0, _, s => .ok s
  | n + 1, i, s =>
    let la := USTACKTOP - BitVec.ofNat 64 (i + 1) * PGSIZE
    match pgdirAllocPage (env.answers s.allocs) a (pageOf la) PTE_USER s.pages with
    | .error p => .error (.panic p)
    | .ok (none, _) => .error (.panic .stackPage)
    | .ok (some _, pages) => stackPages n (i + 1) { s with pages := pages, allocs := s.allocs + 1 }

/-- The loop of `load_icode_copy_to_user`; each turn copies a byte at least. -/
def copyToUserLoop : ℕ → Uintptr → List UInt8 → State → Except ℤ State
  | 0, _, _, s => .ok s
  | n + 1, dst, bytes, s =>
    if bytes = [] then .ok s
    else
      match getPte false false a (pageOf dst) s with
      | none => .error (-E_NO_MEM)
      | some s =>
        let pte := s.pte a (pageOf dst)
        if has pte.flags PTE_V = false then .error (-E_NO_MEM)
        else
          let off := dst.toNat % 4096
          let copy := if 4096 - off > bytes.length then bytes.length else 4096 - off
          copyToUserLoop n (dst + BitVec.ofNat 64 copy) (bytes.drop copy)
            (putPage pte.ppn off (bytes.take copy) s)

/-- `load_icode_copy_to_user` -/
def loadIcodeCopyToUser (dst : Uintptr) (bytes : List UInt8) (s : State) : Except ℤ State :=
  copyToUserLoop a bytes.length dst bytes s

/-- `ROUNDDOWN(sp, sizeof(uintptr_t))` -/
def alignWord (sp : Uintptr) : Uintptr := sp - sp % 8

/-- The loop over the arguments, the last one first: `sp`, and their addresses. -/
def pushStrings : List (List UInt8) → Uintptr → List Uintptr → State →
    Except ℤ (Uintptr × List Uintptr × State)
  | [], sp, uargv, s => .ok (sp, uargv, s)
  | arg :: args, sp, uargv, s =>
    let len := arg.length + 1
    let sp := alignWord (sp - BitVec.ofNat 64 len)
    if sp < USTACKTOP - USTACKSIZE then .error (-E_NO_MEM)
    else do
      let s ← loadIcodeCopyToUser a sp (arg ++ [0]) s
      pushStrings args sp (sp :: uargv) s

/-- The bytes of a word. -/
def wordBytes (w : Uintptr) : List UInt8 :=
  (List.range 8).map fun k => UInt8.ofNat (w.toNat / 256 ^ k)

/-- Words are pushed, the first one first. -/
def pushWords : List Uintptr → Uintptr → State → Except ℤ (Uintptr × State)
  | [], sp, s => .ok (sp, s)
  | w :: ws, sp, s => do
    let sp := sp - 8
    let s ← loadIcodeCopyToUser a sp (wordBytes w) s
    pushWords ws sp s

/-- The arguments on the stack: where `argv` is, and the pages. -/
def pushArgv (kargv : List (List UInt8)) (s : State) : Except ℤ (Uintptr × State) := do
  let (sp, uargv, s) ← pushStrings a kargv.reverse USTACKTOP [] s
  pushWords a (0 :: uargv.reverse) sp s

/-! ### `load_icode` -/

/-- The fields of `struct trapframe` that are set. -/
structure Trapframe where
  sp : Uintptr
  a0 : Uintptr
  a1 : Uintptr
  epc : Uintptr
  status : Uintptr
  deriving DecidableEq

def SSTATUS_SIE : Uintptr := 0x2

def SSTATUS_SPIE : Uintptr := 0x20

def SSTATUS_SPP : Uintptr := 0x100

/-- The address space that a process gets. -/
structure Loaded where
  mm : MmStruct
  pages : State
  tf : Trapframe

/-- `load_icode` from the stack on. -/
def loadStack (elf : Elfhdr) (kargv : List (List UInt8)) (sstatus : Uintptr) (s : Image) :
    Except Stop Loaded :=
  match mmMap (env.vma s.vmas) s.mm (USTACKTOP - USTACKSIZE) USTACKSIZE
      (VM_READ ||| VM_WRITE ||| VM_STACK) with
  | .error p => .error (.panic (.vmm p))
  | .ok (ret, _, mm) =>
    if ret ≠ 0 then .error (.cleanup ret)
    else do
      let s ← stackPages env a 4 0 { s with mm := mm, vmas := s.vmas + 1 }
      match pushArgv a kargv s.pages with
      | .error ret => .error (.cleanup ret)
      | .ok (argvUser, pages) => .ok ⟨s.mm, pages,
          { sp := alignWord argvUser
            a0 := BitVec.ofNat 64 kargv.length
            a1 := argvUser
            epc := elf.eEntry
            status := ((sstatus &&& ~~~SSTATUS_SPP) ||| SSTATUS_SPIE) &&& ~~~SSTATUS_SIE }⟩

/-- `load_icode` after `setup_pgdir`. -/
def buildImage (kargv : List (List UInt8)) (sstatus : Uintptr) (pages : State) : Except Stop Loaded := do
  let (ret, bytes) := loadIcodeRead (env.io 0) env.file sizeofElfhdr 0
  if ret ≠ 0 then .error (.cleanup ret)
  else
    let elf := decodeElfhdr (fileAt bytes 0)
    if elf.eMagic ≠ ELF_MAGIC then .error (.cleanup (-E_INVAL_ELF))
    else
      let s ← loadSegments env a elf elf.ePhnum 0 ⟨⟨[], none, 0⟩, pages, 1, 0, 0, none⟩
      loadStack env a elf kargv sstatus s

/-- `load_icode`: the result, and the address space of the process; `mm` is what it has before. -/
def loadIcode (mm : Option MmStruct) (kargv : List (List UInt8)) (sstatus : Uintptr) (pages : State) :
    Except Panic (ℤ × Option Loaded) :=
  if mm ≠ none then .error .notEmpty
  else if env.mmCreate = false then .ok (-E_NO_MEM, none)
  else if env.setupPgdir = false then .ok (-E_NO_MEM, none)
  else
    match buildImage env a kargv sstatus pages with
    | .error (.panic p) => .error p
    | .error (.cleanup ret) => .ok (ret, none)
    | .ok loaded => .ok (0, some loaded)

end Ucore.Exec
