import LinuxStudy.Lib.Attempt
import LinuxStudy.Lib.Bytes
import LinuxStudy.Jos.LoadIcode

/-!
# spawn

`spawn` of `lib/spawn.c`, with `init_stack`, `map_segment` and `copy_shared_pages`. Pages go by
value: between a `sys_page_map` and the end of `spawn` nobody writes to the page. Which system calls
and file operations fail, and how much a `read` returns, is up to the kernel and the file server. An
error return carries the point at which it came about.
-/

namespace LinuxStudy.User

open Jos (Byte eInval eNoMem wordAt halfAt elfMagic elfProgLoad proghdr Proghdr)
open Function (update update_eq_self update_self update_of_ne)
open ByteMem Attempt
open Nat (add_assoc mod_eq_of_lt)

/-- What can go wrong in `spawn`. -/
inductive Point
  | openFile
  | header
  | exofork
  | arguments
  | stackAlloc
  | stackMap
  | blank
  | page
  | seek
  | read
  | segmentMap
  | shared
  | start
  deriving DecidableEq

/-- A negative return value. -/
abbrev Errno := { r : ℤ // r < 0 }

/-- An error return, and where it comes from. -/
abbrev Failure := Point × Errno

/-- The bytes of a page, by offset. -/
abbrev Page := ByteMem

/-- The pages of an environment below `UTOP` with their permissions, by page number. -/
abbrev Space := ℕ → Option (Page × ℕ)

structure Child where
  space : Space
  eip : ℕ
  esp : ℕ
  runnable : Bool

/-- The program file, and what the kernel and the file server make of each call: whether they refuse
    it, and how many bytes after the first they let a `read` return. -/
structure Host where
  file : List Byte
  fate : Point → ℕ → Option Errno
  more : ℕ → ℕ
  envid : ℕ

structure Spawning where
  /-- The pages of the caller. -/
  parent : Space
  /-- The environment that `spawn` created. -/
  child : Option Child
  /-- The offset of the descriptor, while it is open. -/
  fd : Option ℕ
  /-- The stack of the caller from `elf_buf` on. -/
  frame : ByteMem
  calls : ℕ

abbrev Spawn (α : Type) := Attempt Failure Spawning α

/-- The page of `UTEMP`. -/
def tempPage : ℕ := 0x400

/-- The first page that the kernel does not map for a user. -/
def topPage : ℕ := 0xeec00

namespace Spawning

def setParent (s : Spawning) (p : ℕ) (e : Option (Page × ℕ)) : Spawning :=
  { s with parent := update s.parent p e }

def setChild (s : Spawning) (p : ℕ) (e : Page × ℕ) : Spawning :=
  { s with child := s.child.map fun c => { c with space := update c.space p (some e) } }

def tick (s : Spawning) : Spawning := { s with calls := s.calls + 1 }

/-- A call at a point: refused from outside, refused by its own checks (`none`), or carried out. -/
def call {α : Type} (h : Host) (pt : Point) (effect : Spawning → Option (α × Spawning)) :
    Spawn α := fun s =>
  match h.fate pt s.calls, effect s.tick with
  | some r, _ => some (.error (pt, r), s.tick)
  | none, none => some (.error (pt, ⟨-eInval, by decide⟩), s.tick)
  | none, some (a, t) => some (.ok a, t)

/-- A byte stored by the caller, which faults if it must not. -/
def storeByte (a : ℕ) (b : Byte) : Spawn Unit := fun s =>
  match s.parent (a / 4096) with
  | some (pg, perm) =>
    if perm.testBit 1 then some
      (.ok (), s.setParent (a / 4096) (some (update pg (a % 4096) b, perm)))
    else none
  | none => none

def storeBytes : ℕ → List Byte → Spawn Unit
  | _, [] => pure ()
  | a, b :: bs => do
    storeByte a b
    storeBytes (a + 1) bs

/-- `sys_page_alloc(0, va, perm)` with the page of `va`. -/
def pageAlloc (h : Host) (pt : Point) (p perm : ℕ) : Spawn Unit :=
  call h pt fun s =>
    if p < topPage then some ((), s.setParent p (some (fun _ => 0, perm))) else none

/-- `sys_page_alloc(child, va, perm)`. -/
def pageAllocChild (h : Host) (pt : Point) (p perm : ℕ) : Spawn Unit :=
  call h pt fun s => if p < topPage then some ((), s.setChild p (fun _ => 0, perm)) else none

/-- `sys_page_map(0, srcva, child, dstva, perm)`. -/
def pageMap (h : Host) (pt : Point) (src dst perm : ℕ) : Spawn Unit :=
  call h pt fun s =>
    match s.parent src with
    | some (pg, q) =>
      if dst < topPage ∧
        (perm.testBit 1 = true → q.testBit 1 = true) then some ((), s.setChild dst (pg, perm))
      else none
    | none => none

/-- `sys_page_unmap(0, va)`. -/
def pageUnmap (p : ℕ) : Spawn Unit := fun s => some (.ok (), s.setParent p none)

def openFile (h : Host) : Spawn Unit := call h .openFile fun s => some ((), { s with fd := some 0 })

def close (s : Spawning) : Spawning := { s with fd := none }

def seek (h : Host) (offset : ℕ) : Spawn Unit :=
  call h .seek fun s => s.fd.map fun _ => ((), { s with fd := some offset })

/-- `read`: some of the bytes from the offset on, one at least if there is one. Before the start of
    the file, where the offset is negative, there is no block to read. -/
def read (h : Host) (pt : Point) (n : ℕ) : Spawn (List Byte) :=
  call h pt fun s => s.fd.bind fun offset =>
    if offset < 2 ^ 31 then
      let bs := (h.file.drop offset).take (min n (h.more s.calls + 1))
      some (bs, { s with fd := some (offset + bs.length) })
    else none

/-- `readn` with `n` bytes to go after `tot`, into the buffer that `store` writes. Each round reads
    a byte, so that `n` rounds are enough. -/
def readn (h : Host) (pt : Point) (store : ℕ → List Byte → Spawn Unit) : ℕ → ℕ → ℕ → Spawn ℕ
  | 0, _, tot => pure tot
  | fuel + 1, n, tot =>
    if n = 0 then pure tot
    else do
      let bs ← read h pt n
      store tot bs
      if bs = [] then pure tot else readn h pt store fuel (n - bs.length) (tot + bs.length)

/-- Page `k` of a segment: blank, or with the bytes of the file that are left for it. -/
def mapPage (h : Host) (va filesz offset perm k : ℕ) : Spawn Unit :=
  if filesz ≤ k * 4096 then pageAllocChild h .blank ((va + k * 4096) % 2 ^ 32 / 4096) perm
  else do
    pageAlloc h .page tempPage 7
    seek h ((offset + k * 4096) % 2 ^ 32)
    let n := min 4096 (filesz - k * 4096)
    let _ ← readn h .read (fun tot bs => storeBytes (0x400000 + tot) bs) n n 0
    (pageMap h .segmentMap tempPage ((va + k * 4096) % 2 ^ 32 / 4096) perm).orPanic
    pageUnmap tempPage

def exofork (h : Host) : Spawn Unit :=
  call h .exofork fun s => some ((), { s with child := some ⟨fun _ => none, 0, 0, false⟩ })

section Calls

variable {α : Type} {h : Host} {pt : Point} {effect : Spawning → Option (α × Spawning)}
  {s s' : Spawning}

theorem call_eq_some {r : Except Failure α} (hr : call h pt effect s = some (r, s')) :
    (∃ e, r = .error (pt, e) ∧ s' = s.tick) ∨ ∃ a, r = .ok a ∧ effect s.tick = some (a, s') := by
  rw [call] at hr
  split at hr <;> cases hr
  · exact .inl ⟨_, rfl, rfl⟩
  · exact .inl ⟨_, rfl, rfl⟩
  · next heff => exact .inr ⟨_, rfl, heff⟩

theorem call_eq_ok {a : α} (hr : call h pt effect s = some (.ok a, s')) :
    effect s.tick = some (a, s') := by
  rcases call_eq_some hr with ⟨_, he, _⟩ | ⟨_, he, heff⟩ <;> cases he
  exact heff

theorem setParent_setParent {p : ℕ} {e e' : Option (Page × ℕ)} :
    (s.setParent p e).setParent p e' = s.setParent p e' := by
  simp [setParent]

@[simp] theorem setParent_self {p : ℕ} {e : Option (Page × ℕ)} :
    (s.setParent p e).parent p = e := by
  simp [setParent]

end Calls

section Stores

variable {s s' : Spawning} {pg : Page} {o : ℕ}

theorem storeBytes_temp {bs : List Byte} (hpg : s.parent tempPage = some (pg, 7))
    (ho : o + bs.length ≤ 4096) :
    storeBytes (0x400000 + o) bs s = some (.ok (), s.setParent tempPage
      (some (pg.overwrite o bs.length fun x => bs.getD (x - o) 0, 7))) := by
  induction bs generalizing s pg o with
  | nil =>
    have hsame : s.setParent tempPage (some (pg, 7)) = s := by
      rw [setParent, ← hpg, update_eq_self]
    have hpage : (pg.overwrite o 0 fun x => ([] : List Byte).getD (x - o) 0) = pg :=
      funext fun x => overwrite_out (by omega)
    rw [List.length_nil, hpage, hsame]
    rfl
  | cons b bs ih =>
    rw [List.length_cons] at ho
    have hbyte : storeByte (0x400000 + o) b s =
        some (.ok (), s.setParent tempPage (some (update pg o b, 7))) := by
      have hp : (0x400000 + o) / 4096 = tempPage := by rw [tempPage]; omega
      rw [storeByte, hp, hpg, show (0x400000 + o) % 4096 = o by omega]
      rfl
    rw [storeBytes, bind_of_ok hbyte, Nat.add_assoc, ih setParent_self (by omega),
      setParent_setParent]
    congr 5
    funext x
    by_cases hx : x = o
    · subst hx
      rw [overwrite_out (by omega), overwrite_in (by omega) (by simp), update_self]
      simp
    · by_cases hin : o + 1 ≤ x ∧ x < o + 1 + bs.length
      · rw [overwrite_in hin.1 hin.2, overwrite_in (by omega) (by rw [List.length_cons]; omega),
          show x - o = x - (o + 1) + 1 by omega, List.getD_cons_succ]
      · rw [overwrite_out (by omega),
          overwrite_out (by rw [List.length_cons]; omega), update_of_ne hx]

end Stores

section Files

variable {h : Host} {s s' : Spawning} {pt : Point} {store : ℕ → List Byte → Spawn Unit}

variable {fuel n tot offset m : ℕ}

/-- The first `tot` bytes of the file from `offset` on, over what was there. -/
def laid (m : ByteMem) (h : Host) (offset tot : ℕ) : ByteMem := fun o =>
  if o < tot then h.file.getD (offset + o) 0 else m o

abbrev filled (h : Host) (offset tot : ℕ) : Page := laid (fun _ => 0) h offset tot

theorem laid_append {g : ByteMem} {bs : List Byte}
    (hbs : bs = (h.file.drop (offset + tot)).take m) :
    (laid g h offset tot).overwrite tot bs.length (fun x => bs.getD (x - tot) 0) =
      laid g h offset (tot + bs.length) := by
  funext x
  by_cases hx : tot ≤ x ∧ x < tot + bs.length
  · have hm : x - tot < m := by
      have hle : bs.length ≤ m := hbs ▸ List.length_take_le m _
      omega
    rw [overwrite_in hx.1 hx.2, laid, if_pos hx.2]
    subst hbs
    rw [List.getD_eq_getElem?_getD, List.getElem?_take, if_pos hm, List.getElem?_drop,
      show offset + tot + (x - tot) = offset + x by omega, List.getD_eq_getElem?_getD]
  · rw [overwrite_out (by omega), laid, laid]
    by_cases hlt : x < tot
    · rw [if_pos hlt, if_pos (by omega)]
    · rw [if_neg hlt, if_neg (by omega)]

theorem filled_end (hend : h.file.length ≤ offset + tot) :
    filled h offset (tot + n) = filled h offset tot := by
  funext x
  rw [filled, laid, filled, laid]
  by_cases hlt : x < tot
  · rw [if_pos hlt, if_pos (by omega)]
  · rw [if_neg hlt, List.getD_eq_getElem?_getD, List.getElem?_eq_none (by omega)]
    exact ite_self _

/-- **The file in the page at `UTEMP`.** However many bytes each `read` returns, `readn` brings the
    next `n` bytes of the file, and stops at its end. -/
theorem readn_filled
    (hr : readn h .read (fun tot bs => storeBytes (0x400000 + tot) bs)
      fuel n tot s = some (.ok m, s'))
    (hfuel : n ≤ fuel) (hn : tot + n ≤ 4096) (hfd : s.fd = some (offset + tot))
    (htemp : s.parent tempPage = some (filled h offset tot, 7)) :
    s'.parent = update s.parent tempPage (some (filled h offset (tot + n), 7)) ∧
      s'.child = s.child ∧ s'.fd.isSome ∧ (0 < n → offset + tot < 2 ^ 31) := by
  induction fuel generalizing n tot s with
  | zero =>
    obtain rfl : n = 0 := by omega
    cases hr
    exact ⟨(by rw [Nat.add_zero, ← htemp, update_eq_self]), rfl, (by rw [hfd]; rfl), nofun⟩
  | succ fuel ih =>
    rw [readn] at hr
    split at hr
    · next h0 =>
      subst h0
      cases hr
      exact ⟨(by rw [Nat.add_zero, ← htemp, update_eq_self]), rfl, (by rw [hfd]; rfl), nofun⟩
    next h0 =>
    obtain ⟨bs, t, hread, hr⟩ := bind_eq_ok hr
    obtain ⟨offset', hfd', heff⟩ := Option.bind_eq_some_iff.mp (call_eq_ok hread)
    cases hfd.symm.trans hfd'
    split at heff
    · next hlt =>
      cases heff
      generalize hbs : List.take _ (List.drop (offset + tot) h.file) = bs at hr
      have hlen : bs.length ≤ n := by
        rw [← hbs]
        exact (List.length_take_le ..).trans (Nat.min_le_left ..)
      rw [bind_of_ok
        (storeBytes_temp (s := { s.tick with fd := some (offset + tot + bs.length) }) htemp
        (by omega)), laid_append hbs.symm] at hr
      split at hr
      · next hnil =>
        subst hnil
        have hend : h.file.length ≤ offset + tot := by
          rcases List.take_eq_nil_iff.mp hbs with hz | hz
          · omega
          · exact List.drop_eq_nil_iff.mp hz
        cases hr
        simp only [List.length_nil, Nat.add_zero, filled_end (n := n) hend]
        exact ⟨rfl, rfl, rfl, fun _ => hlt⟩
      · have hrest := ih hr (by have := List.length_pos_iff.mpr ‹bs ≠ []›; omega) (by omega)
          (congrArg some (Nat.add_assoc ..)) setParent_self
        rw [show tot + bs.length + (n - bs.length) = tot + n by omega] at hrest
        refine ⟨hrest.1.trans ?_, hrest.2.1, hrest.2.2.1, fun _ => hlt⟩
        simp [setParent, tick]
    · cases heff

end Files

section Segments

variable {h : Host} {s s' : Spawning} {va filesz offset perm k : ℕ} {c : Child}

/-- Page `k` of a segment, as `map_segment` makes it. -/
def segmentPage (h : Host) (filesz offset k : ℕ) : Page :=
    filled h (offset + k * 4096) (min 4096 (filesz - k * 4096))

theorem mapPage_ok (hr : mapPage h va filesz offset perm k s = some (.ok (), s'))
    (hfd : s.fd.isSome)
    (htemp : s.parent tempPage = none) (hoff : k * 4096 < filesz → offset + k * 4096 < 2 ^ 32) :
    s'.parent = s.parent ∧ s'.fd.isSome ∧ (k * 4096 < filesz → offset + k * 4096 < 2 ^ 31) ∧
      s'.child =
      (s.setChild ((va + k * 4096) % 2 ^ 32 / 4096)
        (segmentPage h filesz offset k, perm)).child := by
  have hzero : ∀ offset, filled h offset 0 = fun _ => 0 := fun _ => rfl
  rw [mapPage] at hr
  split at hr
  · next hle =>
    have heff := call_eq_ok hr
    split at heff <;> cases heff
    rw [segmentPage, show min 4096 (filesz - k * 4096) = 0 by omega, hzero]
    exact ⟨rfl, hfd, fun hlt => absurd hlt (by omega), rfl⟩
  · next hle =>
    have hlt : k * 4096 < filesz := by omega
    rw [mod_eq_of_lt (hoff hlt)] at hr
    obtain ⟨_, t1, halloc, hr⟩ := bind_eq_ok hr
    obtain ⟨_, t2, hseek, hr⟩ := bind_eq_ok hr
    obtain ⟨m, t3, hread, hr⟩ := bind_eq_ok hr
    obtain ⟨_, t4, hmap, hr⟩ := bind_eq_ok hr
    have halloc := call_eq_ok halloc
    split at halloc <;> cases halloc
    obtain ⟨_, _, heff⟩ := Option.map_eq_some_iff.mp (call_eq_ok hseek)
    cases heff
    have hblank : (s.tick.setParent tempPage (some (fun _ => 0, 7))).parent tempPage =
        some (filled h (offset + k * 4096) 0, 7) := by
      rw [setParent_self, hzero]
    obtain ⟨hparent, hchild, hopen, hnear⟩ :=
      readn_filled hread (Nat.le_refl _) (by omega) rfl hblank
    obtain ⟨_, _, hmap⟩ := orPanic_eq_some hmap
    have hmap := call_eq_ok hmap
    rw [tick, hparent, update_self] at hmap
    dsimp only at hmap
    split at hmap <;> cases hmap
    cases hr
    refine ⟨?_, hopen, fun _ => hnear (by omega), ?_⟩
    · simp [setParent, setChild, tick, ← htemp]
    · simp [setChild, setParent, hchild, tick, segmentPage]

/-- The first `k` pages of a segment from page `va / 4096` on are in the child, and nothing else has
    changed. -/
structure Loaded (h : Host) (va filesz offset perm : ℕ) (c : Child) (old : Space) (k : ℕ)
    (s : Spawning) : Prop where
  parent : s.parent = old
  opened : s.fd.isSome
  near : k * 4096 < filesz → offset + k * 4096 < 2 ^ 32
  child : s.child = some { c with
    space := fun p => if va / 4096 ≤ p ∧ p < va / 4096 + k then
      some (segmentPage h filesz offset (p - va / 4096), perm) else c.space p }

theorem Loaded.mapPage {old : Space} (L : Loaded h va filesz offset perm c old k s)
    (hva : va % 4096 = 0)
    (hlt : va + k * 4096 < 2 ^ 32) (hold : old tempPage = none)
    (hr : mapPage h va filesz offset perm k s = some (.ok (), s')) :
    Loaded h va filesz offset perm c old (k + 1) s' := by
  obtain ⟨hparent, hopen, hnear, hchild⟩ := mapPage_ok hr L.opened (L.parent ▸ hold) L.near
  refine ⟨hparent.trans L.parent, hopen, fun h1 => ?_, ?_⟩
  · rw [Nat.succ_mul] at h1 ⊢
    have hhalf := hnear (Nat.lt_of_le_of_lt (Nat.le_add_right _ _) h1)
    rw [← add_assoc]
    exact Nat.lt_of_lt_of_le (Nat.add_lt_add_right hhalf 4096) (by decide)
  · rw [hchild, setChild, L.child,
      mod_eq_of_lt hlt, show (va + k * 4096) / 4096 = va / 4096 + k by omega]
    simp only [Option.map_some, Option.some.injEq, Child.mk.injEq, and_true]
    funext p
    by_cases hp : p = va / 4096 + k
    · rw [hp, update_self, if_pos (by omega), Nat.add_sub_cancel_left]
    · rw [update_of_ne hp]
      by_cases hin : va / 4096 ≤ p ∧ p < va / 4096 + k
      · rw [if_pos hin, if_pos (by omega)]
      · rw [if_neg hin, if_neg (by omega)]

/-- A host that refuses nothing, with a file of three bytes. -/
def quiet : Host := ⟨[1, 2, 3], fun _ _ => none, fun _ => 0, 0x1001⟩

end Segments

section CleanUp

variable {h : Host} {s s' : Spawning} {argv : List (List Byte)}

variable {P : Failure → Prop} {r : Except Failure Unit}

/-- Before the descriptor is open. -/
structure Untouched (s : Spawning) : Prop where
  child : s.child = none
  fd : s.fd = none
  temp : s.parent tempPage = none

end CleanUp

section Arguments

variable {h : Host} {s : Spawning} {pg : Page}

end Arguments

section Failures

variable {h : Host} {s s' : Spawning} {argv : List (List Byte)} {f : Failure}

/-- The bytes of a segment lie below `2^31` in the file. -/
def ReadableAt (ph : Proghdr) : Prop :=
  ph.pVa.toNat % 4096 ≤ ph.pOffset.toNat ∧ ph.pOffset.toNat + ph.pFilesz.toNat ≤ 2 ^ 31

/-- The program headers, at `e_phoff` in the frame with the ELF header. -/
def Readable (frame : ByteMem) : Prop :=
  ∀ i < (halfAt frame 44).toNat,
    let ph := proghdr frame (((wordAt frame 28).toNat + 32 * i) % 2 ^ 32)
    ph.pType = elfProgLoad → ReadableAt ph

instance decidableReadable : DecidablePred Readable := fun frame => by
  unfold Readable ReadableAt
  infer_instance

end Failures

def fresh : Spawning := ⟨fun _ => none, none, none, fun _ => 0, 0⟩

end Spawning

end LinuxStudy.User
