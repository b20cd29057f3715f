import Ucore.Lib.Fallible
import Ucore.Sfs.Mount

/-!
# The image builder (`lab8/tools/mksfs.c`)

`mksfs` walks through a directory of the host and writes its files to an image.  `SfsFs` is its
`struct sfs_fs` with the image.  Blocks are handed out in increasing order and written once; the
inodes and the blocks with block numbers (`struct cache_block`) stay in memory until `close_sfs`.  A
`struct cache_block` or `struct cache_inode` is named by its field `ino`.

The system calls succeed, and a call of `read` gives what it returned.  `bug` and `assert` end the
program.
-/

namespace Ucore.Mksfs

open Fallible Memory Sfs

def SFS_MAX_NBLKS : ℕ := 1024 * 512

def SFS_MAX_FNAME_LEN : ℕ := 255

def SFS_TYPE_LINK : ℕ := 3

def SFS_BLKN_ROOT : ℕ := 1

def HASH_SHIFT : ℕ := 10

def HASH_LIST_SIZE : ℕ := 2 ^ HASH_SHIFT

def SFS_L0_NBLKS : ℕ := SFS_NDIRECT

def SFS_L1_NBLKS : ℕ := SFS_BLK_NENTRY + SFS_L0_NBLKS

def SFS_L2_NBLKS : ℕ := SFS_BLK_NENTRY * SFS_BLK_NENTRY + SFS_L1_NBLKS

def SFS_LN_NBLKS : ℕ := 1024 * 1024 * 128 / SFS_BLKSIZE

/-- How `mksfs` ends early. -/
inductive Bug
  | imgTooSmall
  | outOfDiskSpace
  | fileTooBig
  | assertion
  deriving DecidableEq, Repr

/-- `struct inode`. -/
structure Inode where
  size : ℕ
  type : ℕ
  nlinks : ℕ
  blocks : ℕ
  direct : ℕ → ℕ
  indirect : ℕ
  dbIndirect : ℕ

/-- `struct cache_inode`, without the links of the hash table. -/
structure CacheInode where
  inode : Inode
  nblks : ℕ
  l1 : Option ℕ
  l2 : Option ℕ

/-- `struct sfs_fs` with the image and the static `__entry` of `add_entry`; the hash tables `inodes`
and `blocks` have lists of numbers. -/
structure SfsFs where
  ninos : ℕ
  nextIno : ℕ
  unusedBlocks : ℕ
  img : ℕ → Mem
  inode : ℕ → CacheInode
  inodes : ℕ → List ℕ
  cache : ℕ → Mem
  blocks : ℕ → List ℕ
  entry : Mem

/-- `__hash32(val, HASH_SHIFT)`. -/
def hash32 (val : ℕ) : ℕ := val * 0x9e370001 % 2 ^ 32 / 2 ^ (32 - HASH_SHIFT)

def hash64 (val : ℕ) : ℕ := hash32 (val % 2 ^ 32)

/-- The bytes of a string or a buffer. -/
def bytesOf (l : List UInt8) : Mem := fun i => l.getD i 0

namespace SfsFs

def setInode (s : SfsFs) (g : ℕ) (ci : CacheInode) : SfsFs :=
  { s with inode := Function.update s.inode g ci }

def setCache (s : SfsFs) (c : ℕ) (data : Mem) : SfsFs :=
  { s with cache := Function.update s.cache c data }

/-! ### Allocation -/

/-- `sfs_alloc_ino`. -/
def sfsAllocIno (s : SfsFs) : Except Bug (ℕ × SfsFs) :=
  if s.nextIno < s.ninos then
    .ok (s.nextIno, { s with unusedBlocks := s.unusedBlocks - 1, nextIno := s.nextIno + 1 })
  else .error .outOfDiskSpace

/-- `alloc_cache_block`. -/
def allocCacheBlock (s : SfsFs) (ino : ℕ) : Except Bug (ℕ × SfsFs) := do
  let (cb, s) ← (if ino ≠ 0 then .ok (ino, s) else s.sfsAllocIno)
  .ok (cb, { s with
    cache := Function.update s.cache cb fun _ => 0
    blocks := Function.update s.blocks (hash32 ino) (cb :: s.blocks (hash32 ino)) })

/-- `search_cache_block`. -/
def searchCacheBlock (s : SfsFs) (ino : ℕ) : Option ℕ := (s.blocks (hash32 ino)).find? (· = ino)

/-- `alloc_cache_inode`. -/
def allocCacheInode (s : SfsFs) (real ino type : ℕ) : Except Bug (ℕ × SfsFs) := do
  let (g, s) ← (if ino ≠ 0 then .ok (ino, s) else s.sfsAllocIno)
  .ok (g, { s.setInode g ⟨⟨0, type, 0, 0, fun _ => 0, 0, 0⟩, 0, none, none⟩ with
    inodes := Function.update s.inodes (hash64 real) (g :: s.inodes (hash64 real)) })

/-- `create_sfs` of an image with `nblks` blocks. -/
def createSfs (nblks : ℕ) (img : ℕ → Mem) : Except Bug SfsFs := do
  let ninos := nblks % 2 ^ 32
  let ninos := if ninos > SFS_MAX_NBLKS then SFS_MAX_NBLKS else ninos
  let nextIno := SFS_BLKN_FREEMAP + (ninos + SFS_BLKBITS - 1) / SFS_BLKBITS
  require (¬nextIno ≥ ninos) Bug.imgTooSmall
  let s : SfsFs := ⟨ninos, nextIno, ninos - nextIno, img,
    fun _ => ⟨⟨0, 0, 0, 0, fun _ => 0, 0, 0⟩, 0, none, none⟩, fun _ => [], fun _ _ => 0, fun _ => [],
    fun _ => 0⟩
  let (_, s) ← s.allocCacheInode 0 SFS_BLKN_ROOT SFS_TYPE_DIR
  .ok s

/-! ### Blocks of a file -/

/-- `write_block`: the rest of the block is cleared. -/
def writeBlock (s : SfsFs) (data : Mem) (len ino : ℕ) : Except Bug SfsFs := do
  require (len ≤ SFS_BLKSIZE ∧ ino < s.ninos) Bug.assertion
  .ok { s with img := Function.update s.img ino fun i => if i < len then data i else 0 }

/-- `update_cache` with `*cbp = cb` and `*inop = ino`: their new values. -/
def updateCache (s : SfsFs) (cb : Option ℕ) (ino : ℕ) : Except Bug (ℕ × ℕ × SfsFs) :=
  if ino = 0 then do
    let (cb, s) ← s.allocCacheBlock 0
    .ok (cb, cb, s)
  else if cb = some ino then .ok (ino, ino, s)
  else
    match s.searchCacheBlock ino with
    | none => .error .assertion
    | some cb => do
      require (cb = ino) Bug.assertion
      .ok (cb, ino, s)

/-- `data[i] = ino` in the block with block numbers `c`. -/
def setEntry (s : SfsFs) (c i ino : ℕ) : SfsFs :=
  s.setCache c (memcpy (s.cache c) (4 * i) (bytes32 ino) 4)

/-- The part of `append_block` that depends on the level of block `nblks`. -/
def appendLevel (s : SfsFs) (file : CacheInode) (nblks ino : ℕ) : Except Bug (CacheInode × SfsFs) :=
  let inode := file.inode
  if nblks < SFS_L0_NBLKS then
    .ok ({ file with inode := { inode with direct := Function.update inode.direct nblks ino } }, s)
  else if nblks < SFS_L1_NBLKS then do
    let nblks := nblks - SFS_L0_NBLKS
    let (l1, indirect, s) ← s.updateCache file.l1 inode.indirect
    .ok ({ file with inode := { inode with indirect := indirect }, l1 := some l1 },
      s.setEntry l1 nblks ino)
  else if nblks < SFS_L2_NBLKS then do
    let nblks := nblks - SFS_L1_NBLKS
    let (l2, dbIndirect, s) ← s.updateCache file.l2 inode.dbIndirect
    let (l1, entry, s) ← s.updateCache file.l1 (read32 (s.cache l2) (4 * (nblks / SFS_BLK_NENTRY)))
    let s := s.setEntry l2 (nblks / SFS_BLK_NENTRY) entry
    .ok ({ file with inode := { inode with dbIndirect := dbIndirect }, l1 := some l1, l2 := some l2 },
      s.setEntry l1 (nblks % SFS_BLK_NENTRY) ino)
  else .ok (file, s)

/-- `append_block`. -/
def appendBlock (s : SfsFs) (g size ino : ℕ) : Except Bug SfsFs := do
  require (size ≤ SFS_BLKSIZE) Bug.assertion
  let nblks := (s.inode g).nblks
  require (¬nblks ≥ SFS_LN_NBLKS) Bug.fileTooBig
  let (file, s) ← s.appendLevel (s.inode g) nblks ino
  .ok (s.setInode g { file with
    nblks := nblks + 1
    inode := { file.inode with
      size := (file.inode.size + size) % 2 ^ 32
      blocks := (file.inode.blocks + 1) % 2 ^ 32 } })

/-- A new block with the bytes `data`, at the end of the file. -/
def addBlock (s : SfsFs) (g : ℕ) (data : Mem) (len : ℕ) : Except Bug SfsFs := do
  let (ino, s) ← s.sfsAllocIno
  let s ← s.writeBlock data len ino
  s.appendBlock g len ino

/-! ### Files and directories -/

/-- The loop of `open_file`; `chunks` is what `read` returns before it returns 0. -/
def openFileLoop (g : ℕ) : SfsFs → ℕ → List (List UInt8) → Except Bug SfsFs
  | s, _, [] => .ok s
  | s, last, chunk :: chunks => do
    require (last = SFS_BLKSIZE) Bug.assertion
    let s ← s.addBlock g (bytesOf chunk) chunk.length
    openFileLoop g s chunk.length chunks

/-- `open_file`. -/
def openFile (s : SfsFs) (g : ℕ) (chunks : List (List UInt8)) : Except Bug SfsFs :=
  openFileLoop g s SFS_BLKSIZE chunks

/-- `open_link`; `link` is what `readlink` stores. -/
def openLink (s : SfsFs) (g : ℕ) (link : List UInt8) : Except Bug SfsFs :=
  s.addBlock g (bytesOf link) link.length

/-- `sizeof(entry->name)`. -/
def sizeofName : ℕ := SFS_MAX_FNAME_LEN + 1

/-- The assignments to `*entry` in `add_entry`. -/
def fillEntry (entry : Mem) (ino : ℕ) (name : List UInt8) : Mem :=
  memcpy (memcpy entry 0 (bytes32 ino) 4) 4 (bytesOf (name ++ [0])) (name.length + 1)

/-- `add_entry`. -/
def addEntry (s : SfsFs) (current file : ℕ) (name : List UInt8) : Except Bug SfsFs := do
  require ((s.inode current).inode.type = SFS_TYPE_DIR ∧ name.length ≤ SFS_MAX_FNAME_LEN) Bug.assertion
  let entry := fillEntry s.entry file name
  let s ← { s with entry := entry }.addBlock current entry sizeofName
  let ci := s.inode file
  .ok (s.setInode file { ci with
    inode := { ci.inode with nlinks := (ci.inode.nlinks + 1) % 2 ^ 16 } })

/-! ### The image -/

/-- The buffer of `close_sfs` for the blocks from `i` on: a set bit is a free block. -/
def freemapData (ninos nextIno i : ℕ) : ℕ → BitVec 32 :=
  if i + SFS_BLKBITS > nextIno then
    let start := if i < nextIno then nextIno - i else 0
    let stop := if i + SFS_BLKBITS > ninos then ninos - i else SFS_BLKBITS
    (List.range' start (stop - start)).foldl (fun data j =>
      Function.update data (j / WORD_BITS) (data (j / WORD_BITS) ||| BitVec.twoPow 32 (j % WORD_BITS)))
      fun _ => 0
  else fun _ => 0

/-- The bytes of a `struct inode`. -/
def inodeBytes (inode : Inode) : Mem := words32 fun w =>
  if w = 0 then inode.size
  else if w = 1 then inode.type + 2 ^ 16 * inode.nlinks
  else if w = 2 then inode.blocks
  else if w < 3 + SFS_NDIRECT then inode.direct (w - 3)
  else if w = 3 + SFS_NDIRECT then inode.indirect
  else inode.dbIndirect

/-- `sizeof(struct inode)`. -/
def sizeofInode : ℕ := 68

/-- `super.info`. -/
def superInfo : Mem :=
  bytesOf [115, 105, 109, 112, 108, 101, 32, 102, 105, 108, 101, 32, 115, 121, 115, 116, 101, 109]

/-- `flush_cache_block`. -/
def flushCacheBlock (s : SfsFs) (c : ℕ) : Except Bug SfsFs := s.writeBlock (s.cache c) SFS_BLKSIZE c

/-- `flush_cache_inode`. -/
def flushCacheInode (s : SfsFs) (g : ℕ) : Except Bug SfsFs :=
  s.writeBlock (inodeBytes (s.inode g).inode) sizeofInode g

/-- `close_sfs`: the image. -/
def closeSfs (s : SfsFs) : Except Bug (ℕ → Mem) := do
  let s ← (List.range (sfsFreemapBlocks s.ninos)).foldlM (fun s k =>
    s.writeBlock (words32 fun ix => (freemapData s.ninos s.nextIno (k * SFS_BLKBITS) ix).toNat)
      SFS_BLKSIZE (SFS_BLKN_FREEMAP + k)) s
  let s ← s.writeBlock (encodeSuper SFS_MAGIC s.ninos s.unusedBlocks superInfo) sizeofSuper
    SFS_BLKN_SUPER
  let s ← (List.range HASH_LIST_SIZE).foldlM (fun s i => do
    let s ← (s.blocks i).foldlM flushCacheBlock s
    (s.inodes i).foldlM flushCacheInode s) s
  .ok s.img

end SfsFs

/-! ### Runs -/

/-- The calls of `add_dir`, `add_file`, `add_link` and `open_dir` that change the file system: a new
inode, with the blocks of a file or a link, and `add_entry`. -/
inductive Call
  | newDir (real : ℕ)
  | newFile (real : ℕ) (chunks : List (List UInt8))
  | newLink (real : ℕ) (link : List UInt8)
  | addEntry (current file : ℕ) (name : List UInt8)

/-- `alloc_cache_inode` and `open_file` in `add_file`: the inode. -/
def SfsFs.newFile (s : SfsFs) (real : ℕ) (chunks : List (List UInt8)) : Except Bug (ℕ × SfsFs) := do
  let (file, s) ← s.allocCacheInode real 0 SFS_TYPE_FILE
  let s ← s.openFile file chunks
  .ok (file, s)

/-- `alloc_cache_inode` and `open_link` in `add_link`: the inode. -/
def SfsFs.newLink (s : SfsFs) (real : ℕ) (link : List UInt8) : Except Bug (ℕ × SfsFs) := do
  let (file, s) ← s.allocCacheInode real 0 SFS_TYPE_LINK
  let s ← s.openLink file link
  .ok (file, s)

def Call.run (s : SfsFs) : Call → Except Bug SfsFs
  | .newDir real => (s.allocCacheInode real 0 SFS_TYPE_DIR).map Prod.snd
  | .newFile real chunks => (s.newFile real chunks).map Prod.snd
  | .newLink real link => (s.newLink real link).map Prod.snd
  | .addEntry current file name => s.addEntry current file name

/-- The number of a `struct cache_inode`. -/
def SfsFs.IsInode (s : SfsFs) (g : ℕ) : Prop := ∃ i, g ∈ s.inodes i

/-- The calls are made with inodes; `read` returns at least one byte, and a name is a string. -/
def Call.Valid (s : SfsFs) : Call → Prop
  | .newDir _ | .newLink _ _ => True
  | .newFile _ chunks => ∀ chunk ∈ chunks, chunk ≠ []
  | .addEntry current file name => s.IsInode current ∧ s.IsInode file ∧ 0 ∉ name

/-- A call that does not end the program. -/
def Runs (s : SfsFs) (c : Call) (s' : SfsFs) : Prop := c.Valid s ∧ c.run s = .ok s'

end Ucore.Mksfs
