import LinuxStudy.Fs.Bc

/-!
# Files and directories of `fs/fs.c`

A `struct File *` is the address of the structure, in a directory block or in the superblock,
and a pointer to a block number is the address of a word. Numbers are 32 bits wide; an
`off_t` is compared as a signed number and a `size_t` as an unsigned one, as in the source,
and `/` and `%` on an `off_t` round towards zero. A C string is its bytes, without the final
zero. Negative results are errors: `Except.error` carries them where a success stores a
pointer.

The self test `check_bc` undoes what it does and is left out.
-/

namespace LinuxStudy.Fs

open Jos

/-- Error codes of `inc/error.h`. -/
def eNoDisk : Int := 9
def eMaxOpen : Int := 10
def eNotFound : Int := 11
def eBadPath : Int := 12
def eFileExists : Int := 13

def maxnamelen : ℕ := 128
def ndirect : ℕ := 10
def nindirect : ℕ := 1024
def maxfilesize : ℕ := (ndirect + nindirect) * blksize
def blkfiles : ℕ := 16
def ftypeDir : Word := 1#32
def fsMagic : Word := 0x4A0530AE#32

/-- Addresses of the fields of a `struct File`; the name comes first. -/
def fSize (f : ℕ) : ℕ := f + 128
def fType (f : ℕ) : ℕ := f + 132
def fDirect (f i : ℕ) : ℕ := f + 136 + 4 * i
def fIndirect (f : ℕ) : ℕ := f + 176

/-! ### The bitmap -/

def freeBlock (blockno : Word) : FsM Unit := do
  Proc.require (blockno ≠ 0#32)
  let w ← loadw (bitmapAddr blockno)
  storew (bitmapAddr blockno) (w ||| bitmapBit blockno)

/-- One iteration of the loop of `alloc_block`. -/
def allocStep (i : ℕ) : FsM (Option Int) := do
  let blockno : Word := BitVec.ofNat 32 i
  if blockno < (← loadw sNblocks) then
    if ← blockIsFree blockno then
      let w ← loadw (bitmapAddr blockno)
      storew (bitmapAddr blockno) (w &&& ~~~bitmapBit blockno)
      flushBlock (bitmapAddr blockno)
      pure (some blockno.toInt)
    else pure none
  else pure (some (-eNoDisk))

def allocBlock : FsM Int := do
  match ← Proc.search allocStep (2 ^ 32) 1 with
  | some r => pure r
  | none => Proc.fail

/-! ### Initialisation -/

def checkSuper : FsM Unit := do
  Proc.require ((← loadw (diskmap + blksize)) = fsMagic)
  Proc.require ((← loadw sNblocks).toNat ≤ disksize / blksize)

/-- One iteration of the loop of `check_bitmap`. -/
def checkBitmapStep (i : ℕ) : FsM (Option Unit) := do
  if BitVec.ofNat 32 (i * (8 * blksize)) < (← loadw sNblocks) then
    Proc.require ((← blockIsFree (BitVec.ofNat 32 (2 + i))) = false)
    pure none
  else pure (some ())

def checkBitmap : FsM Unit := do
  match ← Proc.search checkBitmapStep (2 ^ 32) 0 with
  | none => Proc.fail
  | some _ =>
    Proc.require ((← blockIsFree 0#32) = false)
    Proc.require ((← blockIsFree 1#32) = false)

/-- `bc_init` reads the superblock, of 264 bytes, into the cache. -/
def bcInit : FsM Unit := do
  touchRange (← diskaddr 1#32) 264

def fsInit : FsM Unit := do
  bcInit
  let _ ← diskaddr 1#32
  modify fun s => { s with super := true }
  checkSuper
  let _ ← diskaddr 2#32
  modify fun s => { s with bitmap := true }
  checkBitmap

/-! ### Blocks of a file -/

/-- The entry for a block in the indirect block of a file. -/
def indirectSlot (f : ℕ) (filebno : Word) : FsM (Except Int ℕ) := do
  let blk ← diskaddr (← loadw (fIndirect f))
  pure (.ok (blk + 4 * (filebno.toNat - ndirect)))

/-- A new indirect block. The result of `alloc_block` is taken as an unsigned number, so the
    test for a failure never succeeds. -/
def allocIndirect (f : ℕ) : FsM Unit := do
  let r ← allocBlock
  storew (fIndirect f) (BitVec.ofInt 32 r)
  memset0 (← diskaddr (← loadw (fIndirect f))) blksize
  flushBlock (← diskaddr (← loadw (fIndirect f)))

/-- The address of the block number. -/
def fileBlockWalk (f : ℕ) (filebno : Word) (alloc : Bool) : FsM (Except Int ℕ) := do
  if ndirect + nindirect ≤ filebno.toNat then pure (.error (-eInval))
  else if filebno.toNat < ndirect then pure (.ok (fDirect f filebno.toNat))
  else if (← loadw (fIndirect f)) = 0#32 then
    if alloc = false then pure (.error (-eNotFound))
    else
      allocIndirect f
      indirectSlot f filebno
  else indirectSlot f filebno

/-- The address of the block. A block that is missing is allocated, and not cleared. -/
def fileGetBlock (f : ℕ) (filebno : Word) : FsM (Except Int ℕ) := do
  match ← fileBlockWalk f filebno true with
  | .error r => pure (.error r)
  | .ok slot =>
    if (← loadw slot) = 0#32 then
      let r ← allocBlock
      if r < 0 then pure (.error (-eNoDisk))
      else
        storew slot (BitVec.ofInt 32 r)
        pure (.ok (← diskaddr (← loadw slot)))
    else pure (.ok (← diskaddr (← loadw slot)))

def fileFreeBlock (f : ℕ) (filebno : Word) : FsM Int := do
  match ← fileBlockWalk f filebno false with
  | .error r => pure r
  | .ok ptr =>
    let p ← loadw ptr
    Proc.when (p ≠ 0#32) do
      freeBlock p
      storew ptr 0#32
    pure 0

/-- `(size + BLKSIZE - 1) / BLKSIZE`, a signed division. -/
def sizeBlocks (size : Word) : Word := (size + 4095#32).sdiv 4096#32

/-- The loop of `file_truncate_blocks`; a warning is printed for a result below 0. -/
def truncateLoop (f : ℕ) : ℕ → ℕ → FsM Unit
  | 0, _ => pure ()
  | n + 1, bno => do
    let _ ← fileFreeBlock f (BitVec.ofNat 32 bno)
    truncateLoop f n (bno + 1)

def fileTruncateBlocks (f : ℕ) (newsize : Word) : FsM Unit := do
  let oldNblocks := sizeBlocks (← loadw (fSize f))
  let newNblocks := sizeBlocks newsize
  truncateLoop f (oldNblocks.toNat - newNblocks.toNat) newNblocks.toNat
  let p ← loadw (fIndirect f)
  Proc.when (newNblocks.toNat ≤ ndirect ∧ p ≠ 0#32) do
    freeBlock p
    storew (fIndirect f) 0#32

def fileSetSize (f : ℕ) (newsize : Word) : FsM Int := do
  let size ← loadw (fSize f)
  Proc.when (newsize.toInt < size.toInt) (fileTruncateBlocks f newsize)
  storew (fSize f) newsize
  flushBlock f
  pure 0

/-- One iteration of the loop of `file_flush`. -/
def flushStep (f i : ℕ) : FsM Unit := do
  match ← fileBlockWalk f (BitVec.ofNat 32 i) false with
  | .error _ => pure ()
  | .ok pdiskbno =>
    let p ← loadw pdiskbno
    Proc.when (p ≠ 0#32) do flushBlock (← diskaddr p)

def flushLoop (f : ℕ) : ℕ → ℕ → FsM Unit
  | 0, _ => pure ()
  | n + 1, i => do
    flushStep f i
    flushLoop f n (i + 1)

def fileFlush (f : ℕ) : FsM Unit := do
  let size ← loadw (fSize f)
  flushLoop f (sizeBlocks size).toInt.toNat 0
  flushBlock f
  let p ← loadw (fIndirect f)
  Proc.when (p ≠ 0#32) do flushBlock (← diskaddr p)

/-! ### Directories -/

/-- `strcmp(p, q) == 0`, for a string `q` of nonzero bytes. -/
def strcmpEq (p : ℕ) : List Byte → FsM Bool
  | [] => do pure (decide ((← loadb p) = 0#8))
  | c :: cs => do
    let b ← loadb p
    if b ≠ 0#8 ∧ b = c then strcmpEq (p + 1) cs else pure false

def strcpy (dst : ℕ) (src : List Byte) : FsM Unit :=
  store dst (src.length + 1) fun x => src.getD (x - dst) 0#8

/-- One entry of a block in the search for a name. -/
def lookupEntry (name : List Byte) (blk j : ℕ) : FsM (Option ℕ) := do
  if ← strcmpEq (blk + 256 * j) name then pure (some (blk + 256 * j)) else pure none

/-- One entry of a block in the search for a free one. -/
def freeEntry (blk j : ℕ) : FsM (Option ℕ) := do
  if (← loadb (blk + 256 * j)) = 0#8 then pure (some (blk + 256 * j)) else pure none

/-- One block of a directory, searched entry by entry. -/
def searchBlock (dir : ℕ) (entry : ℕ → ℕ → FsM (Option ℕ)) (i : ℕ) :
    FsM (Option (Except Int ℕ)) := do
  match ← fileGetBlock dir (BitVec.ofNat 32 i) with
  | .error r => pure (some (.error r))
  | .ok blk =>
    match ← Proc.search (entry blk) blkfiles 0 with
    | some f => pure (some (.ok f))
    | none => pure none

/-- The number of blocks of a directory, whose size must be a multiple of a block. -/
def dirBlocks (dir : ℕ) : FsM ℕ := do
  let size ← loadw (fSize dir)
  Proc.require (size.srem 4096#32 = 0#32)
  pure (size.sdiv 4096#32).toNat

def dirLookup (dir : ℕ) (name : List Byte) : FsM (Except Int ℕ) := do
  let nblock ← dirBlocks dir
  match ← Proc.search (searchBlock dir (lookupEntry name)) nblock 0 with
  | some r => pure r
  | none => pure (.error (-eNotFound))

/-- A free entry; a directory that is full gets another block, whatever that block holds. -/
def dirAllocFile (dir : ℕ) : FsM (Except Int ℕ) := do
  let nblock ← dirBlocks dir
  match ← Proc.search (searchBlock dir freeEntry) nblock 0 with
  | some r => pure r
  | none =>
    let size ← loadw (fSize dir)
    storew (fSize dir) (size + 4096#32)
    fileGetBlock dir (BitVec.ofNat 32 nblock)

/-- The parts of a path between slashes. -/
def components (path : List Byte) : List (List Byte) := (path.splitOn 0x2F#8).filter (· ≠ [])

/-- How `walk_path` ends. -/
inductive Walk
  /-- The file was found, in that directory if the path is not empty. -/
  | found (dir : Option ℕ) (f : ℕ)
  /-- The directory was found, and does not have the last part of the path. -/
  | missing (dir : ℕ) (lastelem : List Byte)
  | error (r : Int)

/-- The loop of `walk_path`. -/
def walkFrom (dir : Option ℕ) (f : ℕ) : List (List Byte) → FsM Walk
  | [] => pure (.found dir f)
  | name :: rest => do
    if maxnamelen ≤ name.length then pure (.error (-eBadPath))
    else if (← loadw (fType f)) ≠ ftypeDir then pure (.error (-eNotFound))
    else
      match ← dirLookup f name with
      | .ok f' => walkFrom (some f) f' rest
      | .error r =>
        if r = -eNotFound ∧ rest = [] then pure (.missing f name) else pure (.error r)

def walkPath (path : List Byte) : FsM Walk := walkFrom none sRoot (components path)

/-- `file_create`. Of the entry only the name is set. -/
def fileCreate (path : List Byte) : FsM (Except Int ℕ) := do
  match ← walkPath path with
  | .found _ _ => pure (.error (-eFileExists))
  | .error r => pure (.error r)
  | .missing dir name =>
    match ← dirAllocFile dir with
    | .error r => pure (.error r)
    | .ok f =>
      strcpy f name
      fileFlush dir
      pure (.ok f)

def fileOpen (path : List Byte) : FsM (Except Int ℕ) := do
  match ← walkPath path with
  | .found _ f => pure (.ok f)
  | .missing _ _ => pure (.error (-eNotFound))
  | .error r => pure (.error r)

/-! ### Reading and writing -/

/-- `MIN`, where one side is unsigned. -/
def minu (a b : Word) : Word := if a ≤ b then a else b

/-- The loop of `file_read` and `file_write`, block by block up to `stop`; `move` gets the
    address in the buffer, the address in the block and the number of bytes. The result is an
    error, if there is one. -/
def xferLoop (move : ℕ → ℕ → ℕ → FsM Unit) (f : ℕ) (stop : Word) :
    ℕ → Word → ℕ → FsM (Option Int)
  | 0, _, _ => Proc.fail
  | n + 1, pos, buf => do
    if pos < stop then
      match ← fileGetBlock f (pos.sdiv 4096#32) with
      | .error r => pure (some r)
      | .ok blk =>
        let bn := minu (4096#32 - pos.srem 4096#32) (stop - pos)
        move buf (BitVec.ofNat 32 blk + pos.srem 4096#32).toNat bn.toNat
        xferLoop move f stop n (pos + bn) (buf + bn.toNat)
    else pure none

def fileRead (f buf : ℕ) (count offset : Word) : FsM Int := do
  let size ← loadw (fSize f)
  if size.toInt ≤ offset.toInt then pure 0
  else
    let count := minu count (size - offset)
    match ← xferLoop (fun buf blk n => memmove buf blk n) f (offset + count) (count.toNat + 1)
      offset buf with
    | some r => pure r
    | none => pure count.toInt

/-- `file_write`. The result of `file_set_size` is never an error. -/
def fileWrite (f buf : ℕ) (count offset : Word) : FsM Int := do
  let size ← loadw (fSize f)
  Proc.when (size < offset + count) do
    let _ ← fileSetSize f (offset + count)
  match ← xferLoop (fun buf blk n => memmove blk buf n) f (offset + count) (count.toNat + 1)
    offset buf with
  | some r => pure r
  | none => pure count.toInt

end LinuxStudy.Fs
