import LinuxStudy.Fs.Content
import LinuxStudy.Fs.OneFile

/-!
# The file server of `fs/serv.c`

The request page of a client is mapped right below the disk map, and the pages of the open files,
each with a `struct Fd`, right above it. Clients write to these pages as they like, so their bytes
are taken from memory where the server reads them. How often the page of an open file is mapped
is kept in `refs`; the server's own mapping counts too.

The result of `serve_open` comes with the open file whose page is sent along. `mem` tells whether
`sys_page_alloc` succeeds. Calls of `fs/fs.c` are recorded in `calls`.
-/

namespace LinuxStudy.Fs

open Jos
open Proc (bind_of_eq get_apply pure_eq_some bind_eq_some)

def maxopen : ℕ := 1024
def pgsize : ℕ := 4096
def maxpathlen : ℕ := 1024
def fileva : ℕ := 0xD0000000

/-- The address of the request page. -/
def fsreq : ℕ := 0x0ffff000

def oAccmode : Word := 0x003#32
def oCreat : Word := 0x100#32
def oTrunc : Word := 0x200#32
def oExcl : Word := 0x400#32

/-- `o_fd` of an entry of `opentab` is always the same page. -/
structure OpenFile where
  fileid : Word
  file : ℕ
  mode : Word

structure Serv where
  fs : Server
  opentab : Fin maxopen → OpenFile
  /-- `pageref(o_fd)`. -/
  refs : Fin maxopen → ℕ
  /-- The calls of the file system, with the states before and after. -/
  calls : List (Server × FsOp × Server)

abbrev ServM := Proc Serv

/-- `o_fd`, and the addresses of its fields. -/
def oFd (i : Fin maxopen) : ℕ := fileva + pgsize * i
def fdOffset (i : Fin maxopen) : ℕ := oFd i + 4
def fdOmode (i : Fin maxopen) : ℕ := oFd i + 8
def fdFileId (i : Fin maxopen) : ℕ := oFd i + 12

/-- An access to memory. -/
def access {α : Type} (x : FsM α) :
    ServM α := fun s => (x s.fs).map fun p => (p.1, { s with fs := p.2 })

/-- A call of the file system. -/
def call {α : Type} (op : FsOp) (x : FsM α) : ServM α := fun s =>
  (x s.fs).map fun p => (p.1, { s with fs := p.2, calls := s.calls ++ [(s.fs, op, p.2)] })

def Serv.setFile (s : Serv) (i : Fin maxopen) (o : OpenFile) : Serv :=
  { s with opentab := Function.update s.opentab i o }

def Serv.setRefs (s : Serv) (i : Fin maxopen) (n : ℕ) : Serv :=
  { s with refs := Function.update s.refs i n }

/-! ### The open-file table -/

/-- An entry that is not in use gets its next file id. The id is returned, as an `int`. -/
def openfileTake (i : Fin maxopen) : ServM Int := do
  modify fun s => s.setFile i { s.opentab i with fileid := (s.opentab i).fileid + 1024#32 }
  access (memset0 (oFd i) pgsize)
  pure ((← get).opentab i).fileid.toInt

/-- One iteration of the loop of `openfile_alloc`. -/
def openfileAllocStep (mem : Bool) (i : ℕ) : ServM (Option (Int × Fin maxopen)) := do
  if h : i < maxopen then
    let s ← get
    if s.refs ⟨i, h⟩ = 0 then
      if mem = false then pure (some (-eNoMem, ⟨i, h⟩))
      else
        modify fun s => s.setRefs ⟨i, h⟩ 1
        pure (some (← openfileTake ⟨i, h⟩, ⟨i, h⟩))
    else if s.refs ⟨i, h⟩ = 1 then pure (some (← openfileTake ⟨i, h⟩, ⟨i, h⟩))
    else pure none
  else pure none

/-- The result, and the entry if the result is not negative. -/
def openfileAlloc (mem : Bool) : ServM (Int × Option (Fin maxopen)) := do
  match ← Proc.search (openfileAllocStep mem) maxopen 0 with
  | some (r, i) => pure (r, if r < 0 then none else some i)
  | none => pure (-eMaxOpen, none)

def slotOf (fileid : Word) : Fin maxopen := ⟨fileid.toNat % maxopen, Nat.mod_lt _ (by decide)⟩

def openfileLookup (fileid : Word) : ServM (Except Int (Fin maxopen)) := do
  let s ← get
  if s.refs (slotOf fileid) ≤ 1 ∨
    (s.opentab (slotOf fileid)).fileid ≠ fileid then pure (.error (-eInval))
  else pure (.ok (slotOf fileid))

/-! ### The requests -/

/-- The path in the request page, up to its first zero byte. -/
def reqPath (m : ByteMem) : List Byte :=
  ((List.range (maxpathlen - 1)).map fun i => m (fsreq + i)).takeWhile (· ≠ 0#8)

/-- The file is opened, and created before that if the mode asks for it. -/
def openOrCreate (path : List Byte) (omode : Word) : ServM (Except Int ℕ) := do
  if omode &&& oCreat ≠ 0#32 then
    match ← call (.fileCreate path) (fileCreate path) with
    | .ok f => pure (.ok f)
    | .error r =>
      if omode &&& oExcl = 0#32 ∧ r = -eFileExists then call (.fileOpen path) (fileOpen path)
      else pure (.error r)
  else call (.fileOpen path) (fileOpen path)

/-- The entry and its `struct Fd` are filled in. -/
def openfileFill (i : Fin maxopen) (f : ℕ) (omode : Word) : ServM Unit := do
  modify fun s => s.setFile i { s.opentab i with file := f, mode := omode }
  let fileid := ((← get).opentab i).fileid
  access do
    storew (fdFileId i) fileid
    storew (fdOmode i) (omode &&& oAccmode)
    storew (oFd i) 0x66#32

/-- `serve_open` from the point where it has an entry. -/
def serveOpenAt (path : List Byte) (i : Fin maxopen) : ServM (Int × Option (Fin maxopen)) := do
  let omode ← access (loadw (fsreq + maxpathlen))
  match ← openOrCreate path omode with
  | .error r => pure (r, none)
  | .ok f =>
    Proc.when (omode &&& oTrunc ≠ 0#32) do
      let _ ← call (.fileSetSize f 0#32) (fileSetSize f 0#32)
    match ← call (.fileOpen path) (fileOpen path) with
    | .error r => pure (r, none)
    | .ok f =>
      openfileFill i f omode
      pure (0, some i)

def serveOpen (mem : Bool) : ServM (Int × Option (Fin maxopen)) := do
  let path := reqPath (← get).fs.mem
  match ← openfileAlloc mem with
  | (r, none) => pure (r, none)
  | (_, some i) => serveOpenAt path i

/-- The open file of a request, whose id is the first word of the page. -/
def withOpenFile (x : Fin maxopen → ServM Int) : ServM Int := do
  let fileid ← access (loadw fsreq)
  match ← openfileLookup fileid with
  | .error r => pure r
  | .ok i => x i

def serveSetSize : ServM Int := withOpenFile fun i => do
  let size ← access (loadw (fsreq + 4))
  let f := ((← get).opentab i).file
  call (.fileSetSize f size) (fileSetSize f size)

/-- The seek position moves on by the result, if that is not negative. -/
def advance (i : Fin maxopen) (r : Int) : ServM Int := do
  if r < 0 then pure r
  else
    let offset ← access (loadw (fdOffset i))
    access (storew (fdOffset i) (offset + BitVec.ofInt 32 r))
    pure r

/-- `serve_read`. The reply starts where the request does. -/
def serveRead : ServM Int := withOpenFile fun i => do
  let n ← access (loadw (fsreq + 4))
  let offset ← access (loadw (fdOffset i))
  let f := ((← get).opentab i).file
  let r ← call (.fileRead f fsreq n offset) (fileRead f fsreq n offset)
  advance i r

def serveWrite : ServM Int := withOpenFile fun i => do
  let n ← access (loadw (fsreq + 4))
  let t : Word := if BitVec.ofNat 32 pgsize < n then BitVec.ofNat 32 pgsize else n
  let offset ← access (loadw (fdOffset i))
  let f := ((← get).opentab i).file
  let r ← call (.fileWrite f (fsreq + 8) t offset) (fileWrite f (fsreq + 8) t offset)
  advance i r

/-- One byte of `strcpy`. -/
def copyByte (dst src k : ℕ) : FsM (Option Unit) := do
  let b ← loadb (src + k)
  storeb (dst + k) b
  if b = 0#8 then pure (some ()) else pure none

def serveStat : ServM Int := withOpenFile fun i => do
  let f := ((← get).opentab i).file
  access do
    match ← Proc.search (copyByte fsreq f) (2 ^ 32) 0 with
    | none => Proc.fail
    | some _ =>
      storew (fsreq + 128) (← loadw (fSize f))
      storew (fsreq + 132) (if (← loadw (fType f)) = ftypeDir then 1#32 else 0#32)
  pure 0

def serveFlush : ServM Int := withOpenFile fun i => do
  let f := ((← get).opentab i).file
  call (.fileFlush f) (fileFlush f)
  pure 0

/-! ### What the handlers do -/

/-- `openfile_lookup` finds the file id. -/
def Serv.Resolves (s : Serv) (fileid : Word) : Prop :=
  1 < s.refs (slotOf fileid) ∧ (s.opentab (slotOf fileid)).fileid = fileid

instance (s : Serv) (fileid : Word) : Decidable (s.Resolves fileid) :=
    inferInstanceAs (Decidable (_ ∧ _))

/-- The words of a request, and the seek position of an open file. -/
def Serv.reqFileid (s : Serv) : Word := s.fs.mem.word fsreq
def Serv.reqN (s : Serv) : Word := s.fs.mem.word (fsreq + 4)
def Serv.offset (s : Serv) (i : Fin maxopen) : Word := s.fs.mem.word (fdOffset i)

section Handlers

variable {s s' : Serv} {α : Type} {x : FsM α} {a : α} {op : FsOp} {fileid : Word} {r : Int}

theorem map_fs_eq_some {g : Server → Serv} : (x s.fs).map (fun p => (p.1, g p.2)) = some (a, s') ↔
    ∃ t, x s.fs = some (a, t) ∧ s' = g t := by
  rw [Option.map_eq_some_iff]
  constructor
  · rintro ⟨⟨a', t⟩, hx, heq⟩
    cases heq
    exact ⟨t, hx, rfl⟩
  · rintro ⟨t, hx, rfl⟩
    exact ⟨(a, t), hx, rfl⟩

theorem access_eq_some : access x s = some (a, s') ↔
    ∃ t, x s.fs = some (a, t) ∧ s' = { s with fs := t } :=
  map_fs_eq_some (g := fun t => { s with fs := t })

theorem call_eq_some : call op x s = some (a, s') ↔
    ∃ t, x s.fs = some (a, t) ∧ s' = { s with fs := t, calls := s.calls ++ [(s.fs, op, t)] } :=
  map_fs_eq_some (g := fun t => { s with fs := t, calls := s.calls ++ [(s.fs, op, t)] })

variable {t : Server} {b n : ℕ} {i : Fin maxopen} {q : Int}

theorem present_of_offMap (h : OffMap b n) : ∀ x, b ≤ x → x < b + n → t.Present x :=
  fun _ h1 h2 hmap => absurd hmap (not_inMap_of_offMap h h1 h2)

theorem loadw_offMap (h : OffMap b 4) : loadw b t = some (t.mem.word b, t) := by
  rw [loadw, bind_of_eq (touchRange_of_present (present_of_offMap h))]
  rfl

theorem access_loadw (h : OffMap b 4) : access (loadw b) s = some (s.fs.mem.word b, s) := by
  rw [access, loadw_offMap h]
  rfl

/-- The request page lies below the disk map, and the pages of open files lie above it. -/
theorem fsreq_offMap {o : ℕ} (h : o + n ≤ pgsize) : OffMap (fsreq + o) n := by
  left
  simp only [fsreq, diskmap, pgsize] at *
  omega

theorem fd_offMap (i : Fin maxopen) (o n : ℕ) : OffMap (oFd i + o) n := by
  right
  simp only [oFd, fileva, pgsize, diskmap, disksize]
  omega

theorem access_reqFileid : access (loadw fsreq) s = some (s.reqFileid, s) :=
  access_loadw (fsreq_offMap (o := 0) (by decide))

theorem access_reqN : access (loadw (fsreq + 4)) s = some (s.reqN, s) :=
  access_loadw (fsreq_offMap (by decide))

theorem access_offset : access (loadw (fdOffset i)) s = some (s.offset i, s) :=
  access_loadw (fd_offMap i 4 4)

theorem openfileLookup_eq : openfileLookup fileid s =
    if s.refs (slotOf fileid) ≤ 1 ∨
    (s.opentab (slotOf fileid)).fileid ≠ fileid then some (.error (-eInval), s)
    else some (.ok (slotOf fileid), s) := by
  rw [openfileLookup, bind_of_eq get_apply]
  split <;> rfl

theorem withOpenFile_cases {k : Fin maxopen → ServM Int} (h : withOpenFile k s = some (r, s')) :
    (¬ s.Resolves s.reqFileid ∧ r = -eInval ∧ s' = s) ∨
      s.Resolves s.reqFileid ∧ k (slotOf s.reqFileid) s = some (r, s') := by
  rw [withOpenFile, bind_of_eq access_reqFileid, Proc.bind_apply, openfileLookup_eq] at h
  split at h
  · next hno =>
    cases h
    refine .inl ⟨fun hres => ?_, rfl, rfl⟩
    rcases hno with hle | hne
    · exact absurd hres.1 (Nat.not_lt.mpr hle)
    · exact hne hres.2
  · next hyes =>
    rw [not_or, not_le, not_not] at hyes
    exact .inr ⟨hyes, h⟩

theorem advance_cases (h : advance i q s = some (r, s')) :
    r = q ∧ (q < 0 ∧ s' = s ∨ 0 ≤ q ∧ ∃ t, s' = { s with fs := t } ∧
      Shows (s.fs.view.putWord (fdOffset i) (s.offset i + BitVec.ofInt 32 q)) s.fs t) := by
  rw [advance] at h
  split at h
  · next hq =>
    cases h
    exact ⟨rfl, .inl ⟨hq, rfl⟩⟩
  · next hq =>
    rw [bind_of_eq access_offset, bind_eq_some] at h
    obtain ⟨_, s1, hstore, h⟩ := h
    cases h
    obtain ⟨t, hword, rfl⟩ := access_eq_some.mp hstore
    exact ⟨rfl, .inr ⟨Int.not_lt.mp hq, t, rfl, storew_shows hword⟩⟩

theorem serveRead_cases (h : serveRead s = some (r, s')) :
    (¬ s.Resolves s.reqFileid ∧ r = -eInval ∧ s' = s) ∨
      s.Resolves s.reqFileid ∧ ∃ t s1, fileRead (s.opentab (slotOf s.reqFileid)).file fsreq s.reqN
          (s.offset (slotOf s.reqFileid)) s.fs = some (r, t) ∧
        s1 = { s with fs := t, calls :=
          s.calls ++ [(s.fs, .fileRead (s.opentab (slotOf s.reqFileid)).file fsreq
          s.reqN (s.offset (slotOf s.reqFileid)), t)] } ∧
          advance (slotOf s.reqFileid) r s1 = some (r, s') := by
  refine (withOpenFile_cases h).imp_right fun ⟨hres, h⟩ => ⟨hres, ?_⟩
  rw [bind_of_eq access_reqN, bind_of_eq access_offset, bind_of_eq get_apply, bind_eq_some] at h
  obtain ⟨q, s1, hcall, h⟩ := h
  obtain ⟨t, hread, rfl⟩ := call_eq_some.mp hcall
  obtain ⟨rfl, _⟩ := advance_cases h
  exact ⟨t, _, hread, rfl, h⟩

/-- The number of bytes that `serve_write` passes on. -/
def Serv.writeN (s : Serv) : Word :=
  if BitVec.ofNat 32 pgsize < s.reqN then BitVec.ofNat 32 pgsize else s.reqN

theorem serveWrite_cases (h : serveWrite s = some (r, s')) :
    (¬ s.Resolves s.reqFileid ∧ r = -eInval ∧ s' = s) ∨
      s.Resolves s.reqFileid ∧ ∃ t s1,
      fileWrite (s.opentab (slotOf s.reqFileid)).file (fsreq + 8) s.writeN
          (s.offset (slotOf s.reqFileid)) s.fs = some (r, t) ∧
        s1 = { s with fs := t, calls :=
          s.calls ++ [(s.fs, .fileWrite (s.opentab (slotOf s.reqFileid)).file
          (fsreq + 8) s.writeN (s.offset (slotOf s.reqFileid)), t)] } ∧
        advance (slotOf s.reqFileid) r s1 = some (r, s') := by
  refine (withOpenFile_cases h).imp_right fun ⟨hres, h⟩ => ⟨hres, ?_⟩
  rw [bind_of_eq access_reqN, bind_of_eq access_offset, bind_of_eq get_apply, bind_eq_some] at h
  obtain ⟨q, s1, hcall, h⟩ := h
  obtain ⟨t, hwrite, rfl⟩ := call_eq_some.mp hcall
  obtain ⟨rfl, _⟩ := advance_cases h
  exact ⟨t, _, hwrite, rfl, h⟩

end Handlers

section RequestPage

variable {s s' : Serv} {r : Int} {S D : Set ℕ} {v : ByteMem} {f p : ℕ}

/-- The file has got the first `k` bytes of the request, and nothing else. -/
def Received (s s' : Serv) (f offset k : ℕ) : Prop :=
  (∀ j < k, byteAt s'.fs.view f (offset + j) = s.fs.mem (fsreq + 8 + j)) ∧
    ∀ p, p / blksize < ndirect + nindirect → p < offset ∨ offset + k ≤ p →
      blockAt s.fs.view f p ≠ 0#32 → byteAt s'.fs.view f p = byteAt s.fs.view f p

end RequestPage

/-- The server with the file of the disk open, and a request for it. -/
def servOn (disk : ByteMem) (reqN : Word) : Serv where
  fs := serverOn ((disk.putWord fsreq 1024#32).putWord (fsreq + 4) reqN)
  opentab i := ⟨BitVec.ofNat 32 (1024 + i), blkaddr 3#32, 2#32⟩
  refs _ := 2
  calls := []

end LinuxStudy.Fs
