import Mathlib.Data.Fintype.Prod
import LinuxStudy.Lib.RefCount
import LinuxStudy.Lib.Run

/-!
# The references to a pipe

`_pipeisclosed` compares the reference counts of a Fd page and of the page of the pipe. Here are
the environments that share pipes, with the pages they have mapped in the two areas of `lib/fd.c`
(a Fd page and a data page for each file descriptor), and the library calls that change these
mappings: `pipe`, `dup`, `close`, `fork` and `spawn` (which copies the shared pages with
`copy_shared_pages`), cut at every system call. Any system call that needs memory may fail.

The device and the mode in a Fd page are its `Role`. All Fd pages and the pages of pipes are
mapped with `PTE_SHARE`,
  so `fork` and `spawn` give the child the same page. `fork` and `copy_shared_pages` go through the
address space upwards, so they copy all Fd pages before the first data page, while `dup` maps the
data page first and `devpipe_close` unmaps it last.
-/

namespace LinuxStudy.User

open Function (update update_self update_of_ne)
open RefCount (update_cases)

/-- A file descriptor below `MAXFD`. -/
abbrev FdNum := Fin 32

/-- The two areas, `FDTABLE` and `FILEDATA`. -/
inductive Area
  | fd
  | data
  deriving DecidableEq, Repr

instance : Fintype Area where
  elems := {.fd, .data}
  complete := by
    intro a
    cases a <;> decide

/-- A page of an address space: `INDEX2FD(i)` or `INDEX2DATA(i)`. -/
abbrev Place (E : Type*) := E × Area × FdNum

/-- What the `struct Fd` in a page says: nothing about a pipe, or the pipe and whether it is the
    write end. -/
inductive Role
  | plain
  | pipeEnd (p : ℕ) (write : Bool)
  deriving DecidableEq, Repr

inductive Status
  | free
  /-- Made by `sys_exofork` and not yet runnable. -/
  | building
  | live
  deriving DecidableEq, Repr

/-- Where an environment is in a library call: the system calls that are still to come. -/
inductive Act (E : Type*)
  | idle
  /-- `pipe`, after the first, second and third `sys_page_alloc` and after `sys_page_map`. -/
  | pipeFd1 (i : FdNum)
  | pipeData (i j : FdNum)
  | pipeMap (i j : FdNum)
  | pipeSet (i j : FdNum)
  /-- `sys_page_unmap` of these pages: `close`, and what calls do after an error. -/
  | unmaps (l : List (Area × FdNum))
  /-- `dup`, in `close(newfdnum)`, before the first and before the second `sys_page_map`. -/
  | dupUnmap (l : List (Area × FdNum)) (old new : FdNum)
  | dupData (old new : FdNum)
  | dupFd (old new : FdNum)
  /-- `fork` or `spawn`, with the pages still to be copied to the child. -/
  | copy (c : E) (l : List (Area × FdNum))
  deriving DecidableEq

/-- Where an environment is in `_pipeisclosed`, asked about descriptor `i`. -/
inductive Check
  | idle
  | gotN (i : FdNum) (n : ℕ)
  /-- One of the two counts is loaded. -/
  | gotFd (i : FdNum) (n fd : ℕ)
  | gotP (i : FdNum) (n p : ℕ)
  | compared (i : FdNum) (n : ℕ) (ret : Bool)
  deriving DecidableEq

/-- What a system call does to the mappings, or the end of `pipe` to the Fd pages. -/
inductive Effect (E : Type*)
  | none
  | unmap (x : Place E)
  | map (src dst : Place E)
  | alloc (x : Place E) (q : ℕ)
  | setEnds (q₀ q₁ p : ℕ)

structure World (E : Type*) where
  maps : Place E → Option ℕ
  role : ℕ → Role
  status : E → Status
  act : E → Act E
  check : E → Check
  envRuns : E → ℕ
  /-- No mapping has changed since the environment loaded its first count. -/
  still : E → Prop
  /-- It had not when the second one was loaded, and no child in the making had a Fd page of the
      pipe. -/
  clean : E → Prop

namespace World

variable {E : Type*} [DecidableEq E] (w : World E)

def apply : Effect E → World E
  | .none => w
  | .unmap x => { w with maps := update w.maps x none, still := fun _ => False }
  | .map src dst =>
    { w with maps := update w.maps dst (w.maps src), still := fun _ => False }
  | .alloc x q =>
    { w with maps := update w.maps x (some q), role := update w.role q .plain,
             still := fun _ => False }
  | .setEnds q₀ q₁ p =>
    { w with role := update (update w.role q₀ (.pipeEnd p false)) q₁
                       (.pipeEnd p true) }

def setAct (e : E) (a : Act E) : World E := { w with act := update w.act e a }

def setCheck (e : E) (c : Check) : World E := { w with check := update w.check e c }

def setStatus (e : E) (s : Status) : World E := { w with status := update w.status e s }

def setStill (e : E) : World E := { w with still := update w.still e True }

def setClean (e : E) (P : Prop) : World E := { w with clean := update w.clean e P }

/-- `env_free` drops every mapping of `e`. -/
def freeMaps (e : E) : World E :=
  { w with maps := fun x => if x.1 = e then none else w.maps x, still := fun _ => False }

/-- The page `n` pages from `FDTABLE` on, if it is in one of the areas. -/
def slotAt (n : ℤ) : Option (Area × FdNum) :=
  if 0 ≤ n ∧ n < 32 then some (.fd, Fin.ofNat 32 n.toNat)
  else if 32 ≤ n ∧ n < 64 then some (.data, Fin.ofNat 32 (n.toNat - 32))
  else none

/-- `sys_page_map` in `e`, as far as the areas go. -/
def mapSlot (e : E) (src : Area × FdNum) (dst : Option (Area × FdNum)) : World E :=
  match dst, w.maps (e, src) with
  | some x, some q => { w with maps := update w.maps (e, x) (some q), still := fun _ => False }
  | _, _ => w

/-- `page_alloc` returns a page that is mapped nowhere. -/
def Fresh (q : ℕ) : Prop := ∀ x, w.maps x ≠ some q

/-- The unmappings of `close`. -/
def closing (q : ℕ) (i : FdNum) : List (Area × FdNum) :=
  match w.role q with
  | .plain => [(.fd, i)]
  | .pipeEnd _ _ => [(.fd, i), (.data, i), (.fd, i)]

/-- The pages to copy, in the order of their addresses. -/
def pagesOf (e : E) : List (Area × FdNum) :=
  (((List.finRange 32).map fun i => (Area.fd, i)) ++
    ((List.finRange 32).map fun i => (Area.data, i))).filter fun x => (w.maps (e, x)).isSome

instance [Fintype E] (q : ℕ) : Decidable (w.Fresh q) :=
  inferInstanceAs (Decidable (∀ x, w.maps x ≠ some q))

end World

section Steps

variable {E : Type*} [DecidableEq E]

/-- The next system call of a library call of environment `e`, or the beginning of a call. -/
inductive LibStep (w : World E) (e : E) : Act E → Effect E → Act E → Prop
  /-- A device other than a pipe is opened. -/
  | opened {i : FdNum} {q : ℕ} (hi : w.maps (e, .fd, i) = none) (hq : w.Fresh q) :
      LibStep w e .idle (.alloc (e, .fd, i) q) .idle
  | pipe {i : FdNum} {q : ℕ} (hi : w.maps (e, .fd, i) = none) (hq : w.Fresh q) :
      LibStep w e .idle (.alloc (e, .fd, i) q) (.pipeFd1 i)
  | pipeFd1 {i j : FdNum} {q : ℕ} (hj : w.maps (e, .fd, j) = none) (hq : w.Fresh q) :
      LibStep w e (.pipeFd1 i) (.alloc (e, .fd, j) q) (.pipeData i j)
  | pipeErr1 {i : FdNum} : LibStep w e (.pipeFd1 i) .none (.unmaps [(.fd, i)])
  | pipeData {i j : FdNum} {q : ℕ} (hq : w.Fresh q) :
      LibStep w e (.pipeData i j) (.alloc (e, .data, i) q) (.pipeMap i j)
  | pipeErr2 {i j : FdNum} : LibStep w e (.pipeData i j) .none (.unmaps [(.fd, j), (.fd, i)])
  | pipeMap {i j : FdNum} :
      LibStep w e (.pipeMap i j) (.map (e, .data, i) (e, .data, j)) (.pipeSet i j)
  | pipeErr3 {i j : FdNum} :
      LibStep w e (.pipeMap i j) .none (.unmaps [(.data, i), (.fd, j), (.fd, i)])
  | pipeSet {i j : FdNum} {q₀ q₁ p : ℕ} (hi : w.maps (e, .fd, i) = some q₀)
      (hj : w.maps (e, .fd, j) = some q₁) (hp : w.maps (e, .data, i) = some p) :
      LibStep w e (.pipeSet i j) (.setEnds q₀ q₁ p) .idle
  | close {i : FdNum} {q : ℕ} (hi : w.maps (e, .fd, i) = some q) :
      LibStep w e .idle .none (.unmaps (w.closing q i))
  | unmap {x : Area × FdNum} {l : List (Area × FdNum)} :
      LibStep w e (.unmaps (x :: l)) (.unmap (e, x)) (.unmaps l)
  | unmapped : LibStep w e (.unmaps []) .none .idle
  | dupOver {old new : FdNum} {q q' : ℕ} (hold : w.maps (e, .fd, old) = some q)
      (hnew : w.maps (e, .fd, new) = some q') :
      LibStep w e .idle .none (.dupUnmap (w.closing q' new) old new)
  | dup {old new : FdNum} {q : ℕ} (hold : w.maps (e, .fd, old) = some q)
      (hnew : w.maps (e, .fd, new) = none) : LibStep w e .idle .none (.dupUnmap [] old new)
  | dupUnmap {x : Area × FdNum} {l : List (Area × FdNum)} {old new : FdNum} :
      LibStep w e (.dupUnmap (x :: l) old new) (.unmap (e, x)) (.dupUnmap l old new)
  | dupUnmapped {old new : FdNum} : LibStep w e (.dupUnmap [] old new) .none (.dupData old new)
  | dupData {old new : FdNum} {p : ℕ} (hp : w.maps (e, .data, old) = some p) :
      LibStep w e (.dupData old new) (.map (e, .data, old) (e, .data, new)) (.dupFd old new)
  | dupNoData {old new : FdNum} (hp : w.maps (e, .data, old) = none) :
      LibStep w e (.dupData old new) .none (.dupFd old new)
  | dupErr1 {old new : FdNum} :
      LibStep w e (.dupData old new) .none (.unmaps [(.fd, new), (.data, new)])
  | dupFd {old new : FdNum} {q : ℕ} (hq : w.maps (e, .fd, old) = some q) :
      LibStep w e (.dupFd old new) (.map (e, .fd, old) (e, .fd, new)) .idle
  | dupErr2 {old new : FdNum} :
      LibStep w e (.dupFd old new) .none (.unmaps [(.fd, new), (.data, new)])
  | copy {c : E} {x : Area × FdNum} {l : List (Area × FdNum)} :
      LibStep w e (.copy c (x :: l)) (.map (e, x) (c, x)) (.copy c l)
  /-- `sys_page_map` failed; the child stays as it is. -/
  | copyErr {c : E} {l : List (Area × FdNum)} : LibStep w e (.copy c l) .none .idle

variable [Fintype E]

/-- `pp_ref`, which has 16 bits. -/
def World.pageref (w : World E) (q : ℕ) : ℕ := RefCount.count w.maps q % 2 ^ 16

/-- No child in the making has a Fd page of the pipe `p`. -/
def World.NoHalf (w : World E) (p : ℕ) : Prop :=
  ∀ c i q b, w.status c = .building → w.maps (c, .fd, i) = some q → w.role q ≠ .pipeEnd p b

/-- Environment `e` has an end of the pipe `p` at descriptor `i`. -/
structure World.Holder (w : World E) (e : E) (i : FdNum) (q p : ℕ) (b : Bool) : Prop where
  live : w.status e = .live
  fd : w.maps (e, .fd, i) = some q
  role : w.role q = .pipeEnd p b

inductive WorldLabel (E : Type*)
  | lib (e : E)
  | dupOutside (e : E) (new : ℤ)
  | exofork (e c : E)
  | started (e c : E)
  | destroy (e : E)
  | check (e : E)
  /-- `_pipeisclosed` returns. -/
  | answer (e : E) (i : FdNum) (ret : Bool)
  | resched (e : E)

inductive WorldStep : World E → WorldLabel E → World E → Prop
  | lib {w : World E} {e : E} {f : Effect E} {a : Act E} (hlive : w.status e = .live)
      (hcheck : w.check e = .idle) (h : LibStep w e (w.act e) f a) :
      WorldStep w (.lib e) ((w.apply f).setAct e a)
  /-- `dup` does not check the new number: outside of the table the data page or the Fd page goes
      over a page of the other area, and what is left goes elsewhere, where references are not
      counted here. -/
  | dupOutside {w : World E} {e : E} {old : FdNum} {new : ℤ} (hlive : w.status e = .live)
      (hcheck : w.check e = .idle) (hact : w.act e = .idle) (hold : (w.maps (e, .fd, old)).isSome)
      (hnew : new < 0 ∨ 32 ≤ new) :
      WorldStep w (.dupOutside e new)
        ((w.mapSlot e (.data, old) (World.slotAt (32 + new))).mapSlot e (.fd, old)
          (World.slotAt new))
  | exofork {w : World E} {e c : E} (hlive : w.status e = .live) (hcheck : w.check e = .idle)
      (hact : w.act e = .idle) (hc : w.status c = .free) :
      WorldStep w (.exofork e c)
        ((w.setStatus c .building).setAct e (.copy c (w.pagesOf e)))
  /-- `sys_env_set_status(child, ENV_RUNNABLE)`, after the last page. -/
  | started {w : World E} {e c : E} (hact : w.act e = .copy c []) :
      WorldStep w (.started e c)
        ((w.setStatus c .live).setAct e .idle)
  /-- `exit`, or destroyed by its parent, which is not busy making it. -/
  | destroy {w : World E} {e : E} (hparent : ∀ e' l, w.act e' ≠ .copy e l) :
      WorldStep w (.destroy e)
        ((((w.freeMaps e).setStatus e .free).setAct e .idle).setCheck e .idle)
  | loadN {w : World E} {e : E} {i : FdNum} {q p : ℕ} {b : Bool} (hold : w.Holder e i q p b)
      (hact : w.act e = .idle) (hcheck : w.check e = .idle) :
      WorldStep w (.check e) (w.setCheck e (.gotN i (w.envRuns e)))
  | loadFd {w : World E} {e : E} {i : FdNum} {n q : ℕ} (hc : w.check e = .gotN i n)
      (hq : w.maps (e, .fd, i) = some q) :
      WorldStep w (.check e)
        ((w.setStill e).setCheck e (.gotFd i n (w.pageref q)))
  | loadP {w : World E} {e : E} {i : FdNum} {n p : ℕ} (hc : w.check e = .gotN i n)
      (hp : w.maps (e, .data, i) = some p) :
      WorldStep w (.check e)
        ((w.setStill e).setCheck e (.gotP i n (w.pageref p)))
  | compareP {w : World E} {e : E} {i : FdNum} {n m p : ℕ} (hc : w.check e = .gotFd i n m)
      (hp : w.maps (e, .data, i) = some p) :
      WorldStep w (.check e)
        ((w.setClean e (w.still e ∧ w.NoHalf p)).setCheck e
          (.compared i n (m == w.pageref p)))
  | compareFd {w : World E} {e : E} {i : FdNum} {n m q p : ℕ} (hc : w.check e = .gotP i n m)
      (hq : w.maps (e, .fd, i) = some q) (hp : w.maps (e, .data, i) = some p) :
      WorldStep w (.check e)
        ((w.setClean e (w.still e ∧ w.NoHalf p)).setCheck e
          (.compared i n (w.pageref q == m)))
  | answer {w : World E} {e : E} {i : FdNum} {n : ℕ} {ret : Bool}
      (hc : w.check e = .compared i n ret) (hn : n = w.envRuns e) :
      WorldStep w (.answer e i ret) (w.setCheck e .idle)
  | retry {w : World E} {e : E} {i : FdNum} {n : ℕ} {ret : Bool}
      (hc : w.check e = .compared i n ret) (hn : n ≠ w.envRuns e) :
      WorldStep w (.check e) (w.setCheck e (.gotN i (w.envRuns e)))
  | resched {w : World E} {e : E} {n : ℕ} :
      WorldStep w (.resched e) { w with envRuns := update w.envRuns e n }

end Steps

section Invariant

variable {E : Type*} [DecidableEq E] {w : World E} {e d : E}

/-- Page `q` is mapped at `x` and nowhere else. -/
def World.SoleAt (w : World E) (x : Place E) (q : ℕ) : Prop :=
  w.maps x = some q ∧ ∀ y, w.maps y = some q → y = x

/-- A Fd page no other environment has seen. -/
def World.NewFd (w : World E) (e : E) (i : FdNum) : Prop :=
  ∃ q, w.SoleAt (e, .fd, i) q ∧ w.role q = .plain

/-- In this order, a data page is unmapped only when the descriptor has no end of a pipe. -/
def World.UnmapOk (w : World E) (e : E) (l : List (Area × FdNum)) : Prop :=
  ∀ l₁ i l₂, l = l₁ ++ (.data, i) :: l₂ →
    (.fd, i) ∈ l₁ ∨ ∀ q, w.maps (e, .fd, i) = some q → w.role q = .plain

def World.ActOk (w : World E) (e : E) : Act E → Prop
  | .idle => True
  | .pipeFd1 i => w.NewFd e i
  | .pipeData i j => i ≠ j ∧ w.NewFd e i ∧ w.NewFd e j
  | .pipeMap i j => i ≠ j ∧ w.NewFd e i ∧ w.NewFd e j ∧ ∃ p, w.SoleAt (e, .data, i) p
  | .pipeSet i j => i ≠ j ∧ w.NewFd e i ∧ w.NewFd e j ∧
      ∃ p, w.maps (e, .data, i) = some p ∧ w.maps (e, .data, j) = some p ∧
        ∀ y, w.maps y = some p → y.1 = e
  | .unmaps l => w.UnmapOk e l
  | .dupUnmap l _ new => w.UnmapOk e l ∧ (w.maps (e, .fd, new) = none ∨ (.fd, new) ∈ l)
  | .dupData _ new => w.maps (e, .fd, new) = none
  | .dupFd old new => w.maps (e, .fd, new) = none ∧
      ∀ p, w.maps (e, .data, old) = some p → w.maps (e, .data, new) = some p
  | .copy c l => w.status c = .building ∧ (∀ e' l', w.act e' = .copy c l' → e' = e) ∧
      ∀ x ∉ l, w.maps (c, x) = w.maps (e, x)

/-- What a library call of `e` may do to the mappings. -/
inductive World.Allowed (w : World E) (e : E) : Effect E → Prop
  | none : Allowed w e .none
  | unmap (x : Area × FdNum) : Allowed w e (.unmap (e, x))
  /-- To itself or to the child it is making. -/
  | map {d : E} {x y : Area × FdNum} (hd : d = e ∨ ∃ l, w.act e = .copy d l) (harea : x.1 = y.1) :
      Allowed w e (.map (e, x) (d, y))
  | alloc {x : Area × FdNum} {q : ℕ} (hq : w.Fresh q) : Allowed w e (.alloc (e, x) q)
  | setEnds {i j : FdNum} {q₀ q₁ p : ℕ} (h₀ : w.SoleAt (e, .fd, i) q₀)
      (h₁ : w.SoleAt (e, .fd, j) q₁) (hp : ∀ y, w.maps y = some p → y.1 = e) :
      Allowed w e (.setEnds q₀ q₁ p)

/-- No environment has a Fd page of the other end mapped. -/
def World.NoOther (w : World E) (p : ℕ) (b : Bool) : Prop :=
  ∀ x q, w.maps x = some q → w.role q ≠ .pipeEnd p (!b)

/-- What a step of somebody else leaves to environment `d`. -/
structure World.Keeps (w w' : World E) (d : E) : Prop where
  maps : ∀ x, w'.maps (d, x) = w.maps (d, x)
  role : ∀ x q, w.maps (d, x) = some q → w'.role q = w.role q
  /-- Its pages get new mappings only from environments that have them. -/
  old : ∀ x y q, w.maps (d, x) = some q → w'.maps y = some q →
    w.maps y = some q ∨ ∃ z, w.maps z = some q ∧ z.1 ≠ d
  still : w'.still d → w.still d ∧ w'.maps = w.maps
  clean : w'.clean d → w.clean d
  other : ∀ x p b, w.maps (d, x) = some p → w.NoOther p b → w'.NoOther p b

namespace World

@[simp] theorem apply_status (f : Effect E) : (w.apply f).status = w.status := by cases f <;> rfl

@[simp] theorem apply_act (f : Effect E) : (w.apply f).act = w.act := by cases f <;> rfl

@[simp] theorem apply_check (f : Effect E) : (w.apply f).check = w.check := by cases f <;> rfl

@[simp] theorem apply_clean (f : Effect E) : (w.apply f).clean = w.clean := by cases f <;> rfl

@[simp] theorem apply_unmap_maps (x : Place E) :
    (w.apply (.unmap x)).maps = update w.maps x none := rfl

@[simp] theorem apply_map_maps (x y : Place E) :
    (w.apply (.map x y)).maps = update w.maps y (w.maps x) := rfl

@[simp] theorem apply_alloc_maps (x : Place E) (q : ℕ) :
    (w.apply (.alloc x q)).maps = update w.maps x (some q) := rfl

@[simp] theorem apply_alloc_role (x : Place E) (q : ℕ) :
    (w.apply (.alloc x q)).role = update w.role q .plain := rfl

@[simp] theorem apply_setEnds_role (q0 q1 p : ℕ) :
    (w.apply (.setEnds q0 q1 p)).role =
      update (update w.role q0 (.pipeEnd p false)) q1 (.pipeEnd p true) := rfl

@[simp] theorem setAct_act (a : Act E) : (w.setAct e a).act = update w.act e a := rfl

/-- Another environment's call only matters to a call that makes the same child. -/
theorem ActOk.setAct {a b : Act E} (hok : w.ActOk d a)
    (hb : ∀ c l l', a = .copy c l → b = .copy c l' → e = d) : (w.setAct e b).ActOk d a := by
  cases a with
  | copy c l =>
    refine ⟨hok.1, fun e' l' hl => ?_, hok.2.2⟩
    rcases update_cases hl with ⟨rfl, hv⟩ | ⟨-, hv⟩
    · exact hb c l l' rfl hv
    · exact hok.2.1 e' l' hv
  | _ => exact hok

theorem still_of_setStill (hd : d ≠ e) (h : (w.setStill e).still d) : w.still d := by
  have h' : update w.still e True d := h
  rwa [update_of_ne hd] at h'

variable {P : Prop} {x : Area × FdNum} {y : Place E} {q q' : ℕ} {i : FdNum}
  {l : List (Area × FdNum)} {w' : World E}

theorem clean_of_setClean (hd : d ≠ e) (h : (w.setClean e P).clean d) : w.clean d := by
  have h' : update w.clean e P d := h
  rwa [update_of_ne hd] at h'

theorem of_setClean_self (h : (w.setClean e P).clean e) : P := by
  have h' : update w.clean e P e := h
  rwa [update_self] at h'

omit [DecidableEq E] in
theorem mem_pagesOf : x ∈ w.pagesOf e ↔ (w.maps (e, x)).isSome := by
  obtain ⟨k, i⟩ := x
  cases k <;> simp [pagesOf]

omit [DecidableEq E] in
theorem closing_unmapOk (q : ℕ) (i : FdNum) : w.UnmapOk e (w.closing q i) := by
  intro l1 j l2 hl
  rw [closing] at hl
  left
  -- the data page comes second, after the Fd page
  cases hr : w.role q with
  | plain =>
    rw [hr] at hl
    rcases l1 with _ | ⟨a, _ | ⟨b, l1⟩⟩ <;> simp at hl
  | pipeEnd p b =>
    rw [hr] at hl
    rcases l1 with _ | ⟨a, l1⟩
    · simp at hl
    · rw [List.cons_append, List.cons.injEq] at hl
      obtain ⟨rfl, hl⟩ := hl
      have hj : (Area.data, j) ∈ [(Area.data, i), (Area.fd, i)] := by
        rw [hl]
        simp
      obtain rfl : j = i := by simpa using hj
      exact List.mem_cons_self

omit [DecidableEq E] in
theorem fd_mem_closing (q : ℕ) (i : FdNum) : (Area.fd, i) ∈ w.closing q i := by
  rw [closing]
  split <;> exact List.mem_cons_self

omit [DecidableEq E] in
theorem SoleAt.eq {x : Place E} (h : w.SoleAt x q) (hy : w.maps y = some q) : y = x :=
  h.2 y hy

theorem soleAt_alloc (hq : w.Fresh q) (x : Place E) : (w.apply (.alloc x q)).SoleAt x q := by
  refine ⟨update_self .., fun y hy => ?_⟩
  by_contra hne
  exact hq y (by rwa [apply_alloc_maps, update_of_ne hne] at hy)

theorem SoleAt.alloc {x : Place E} (h : w.SoleAt x q) (hq : w.Fresh q') (hne : x ≠ y) :
    (w.apply (.alloc y q')).SoleAt x q := by
  refine ⟨?_, fun z hz => ?_⟩
  · rw [apply_alloc_maps, update_of_ne hne, h.1]
  · rcases update_cases hz with ⟨rfl, hv⟩ | ⟨-, hv⟩
    · exact absurd (h.1.trans hv.symm) (hq x)
    · exact h.2 z hv

theorem newFd_alloc (hq : w.Fresh q) (i : FdNum) :
    (w.apply (.alloc (e, .fd, i) q)).NewFd e i :=
  ⟨q, soleAt_alloc hq _, update_self ..⟩

theorem NewFd.alloc (h : w.NewFd e i) (hq : w.Fresh q')
    (hne : (e, Area.fd, i) ≠ y) : (w.apply (.alloc y q')).NewFd e i := by
  obtain ⟨q, hsole, hrole⟩ := h
  refine ⟨q, hsole.alloc hq hne, ?_⟩
  have hqq : q ≠ q' := fun h => hq _ (h ▸ hsole.1)
  rw [apply_alloc_role, update_of_ne hqq, hrole]

theorem NewFd.map {x y : FdNum} (h : w.NewFd e i)
    (hx : ∀ q, w.SoleAt (e, .fd, i) q → w.maps (e, .data, x) ≠ some q) :
    (w.apply (.map (e, .data, x) (e, .data, y))).NewFd e i := by
  obtain ⟨q, hsole, hrole⟩ := h
  refine ⟨q, ⟨?_, fun z hz => ?_⟩, hrole⟩
  · have hne : (e, Area.fd, i) ≠ (e, Area.data, y) := by simp
    rw [apply_map_maps, update_of_ne hne, hsole.1]
  · rcases update_cases hz with ⟨rfl, hv⟩ | ⟨-, hv⟩
    · exact absurd hv (hx q hsole)
    · exact hsole.2 z hv

namespace Allowed

variable {f : Effect E} (h : w.Allowed e f)

include h

variable {x : Place E} {q p : ℕ} {b : Bool}

/-- The mappings of the others stay, but for those of a child in the making. -/
theorem maps_other (hx : x.1 ≠ e) (hchild : ∀ l, w.act e ≠ .copy x.1 l) :
    (w.apply f).maps x = w.maps x := by
  cases h with
  | none | setEnds => rfl
  | unmap y | alloc => exact update_of_ne (fun hxy => hx (by rw [hxy])) _ _
  | map hd =>
    refine update_of_ne (fun hxy => ?_) _ _
    rcases hd with rfl | ⟨l, hl⟩
    · exact hx (by rw [hxy])
    · exact hchild l (by rw [hl, hxy])

theorem role_other (hx : x.1 ≠ e) (hq : w.maps x = some q) :
    (w.apply f).role q = w.role q := by
  cases h with
  | none | unmap | map => rfl
  | @alloc _ q' hfresh =>
    have hne : q ≠ q' := fun hqq => hfresh x (hqq ▸ hq)
    rw [apply_alloc_role, update_of_ne hne]
  | @setEnds _ _ q0 q1 _ h0 h1 =>
    have hne0 : q ≠ q0 := fun hqq => hx (congrArg Prod.fst (h0.eq (hqq ▸ hq)))
    have hne1 : q ≠ q1 := fun hqq => hx (congrArg Prod.fst (h1.eq (hqq ▸ hq)))
    rw [apply_setEnds_role, update_of_ne hne1, update_of_ne hne0]

/-- A page that is mapped after the call was mapped before, or it is a new one. -/
theorem maps_old {y : Place E} (hq : (w.apply f).maps y = some q) :
    (∃ z, w.maps z = some q ∧ z.2.1 = y.2.1 ∧ (z.1 = e ∨ z = y)) ∨
      (w.Fresh q ∧ (w.apply f).role q = .plain ∧ y.1 = e) := by
  cases h with
  | none | setEnds => exact .inl ⟨y, hq, rfl, .inr rfl⟩
  | unmap x =>
    rcases update_cases hq with ⟨-, hq⟩ | ⟨-, hq⟩
    · cases hq
    · exact .inl ⟨y, hq, rfl, .inr rfl⟩
  | @map d x x' hd harea =>
    rcases update_cases hq with ⟨rfl, hv⟩ | ⟨-, hv⟩
    · exact .inl ⟨_, hv, harea, .inl rfl⟩
    · exact .inl ⟨y, hv, rfl, .inr rfl⟩
  | @alloc x q' hfresh =>
    rcases update_cases hq with ⟨rfl, ⟨⟩⟩ | ⟨-, hq⟩
    · exact .inr ⟨hfresh, update_self .., rfl⟩
    · exact .inl ⟨y, hq, rfl, .inr rfl⟩

/-- A page of a pipe stays without its other end as long as somebody else holds this one. -/
theorem noOther (hx : x.1 ≠ e) (hp : w.maps x = some p)
    (hn : w.NoOther p b) : (w.apply f).NoOther p b := by
  intro y q hq
  have hplain : ∀ q', w.role q' ≠ .pipeEnd p (!b) → (w.apply f).role q' ≠ .pipeEnd p (!b) := by
    intro q' hq' hend
    cases h with
    | none | unmap | map => exact hq' hend
    | alloc =>
      rcases update_cases hend with ⟨-, hend⟩ | ⟨-, hend⟩
      · cases hend
      · exact hq' hend
    | @setEnds _ _ _ _ p' _ _ hp' =>
      have hpp : ∀ {b'}, Role.pipeEnd p' b' ≠ .pipeEnd p (!b) := fun h =>
        hx (hp' x ((Role.pipeEnd.inj h).1 ▸ hp))
      rcases update_cases hend with ⟨-, hend⟩ | ⟨-, hend⟩
      · exact hpp hend
      rcases update_cases hend with ⟨-, hend⟩ | ⟨-, hend⟩
      · exact hpp hend
      · exact hq' hend
  rcases h.maps_old hq with ⟨z, hz, -⟩ | ⟨-, hrole, -⟩
  · exact hplain q (hn z q hz)
  · rw [hrole]
    nofun

theorem ends_fd (hends : ∀ x q p b, w.maps x = some q → w.role q = .pipeEnd p b → x.2.1 = .fd)
    (hx : (w.apply f).maps x = some q)
    (hr : (w.apply f).role q = .pipeEnd p b) : x.2.1 = .fd := by
  rcases h.maps_old hx with ⟨z, hz, harea, -⟩ | ⟨-, hrole, -⟩
  · rw [← harea]
    cases h with
    | none | unmap | map => exact hends z q p b hz hr
    | @alloc _ q' hfresh =>
      have hne : q ≠ q' := fun hqq => hfresh z (hqq ▸ hz)
      rw [apply_alloc_role, update_of_ne hne] at hr
      exact hends z q p b hz hr
    | @setEnds i j q0 q1 p' h0 h1 =>
      rcases eq_or_ne q q1 with rfl | hne1
      · rw [h1.eq hz]
      rcases eq_or_ne q q0 with rfl | hne0
      · rw [h0.eq hz]
      rw [apply_setEnds_role, update_of_ne hne1, update_of_ne hne0] at hr
      exact hends z q p b hz hr
  · rw [hrole] at hr
    cases hr

omit h in
theorem apply_still (hs : (w.apply f).still d) : w.still d ∧ (w.apply f).maps = w.maps := by
  cases f with
  | none | setEnds => exact ⟨hs, rfl⟩
  | _ => exact hs.elim

theorem keeps (hd : d ≠ e) (hchild : ∀ l, w.act e ≠ .copy d l) (a : Act E) :
    w.Keeps ((w.apply f).setAct e a) d where
  maps x := h.maps_other hd hchild
  role x q hq := h.role_other hd hq
  old x y q hx hy := by
    rcases h.maps_old hy with ⟨z, hz, -, hze | rfl⟩ | ⟨hfresh, -⟩
    · exact .inr ⟨z, hz, hze.trans_ne hd.symm⟩
    · exact .inl hz
    · exact absurd hx (hfresh _)
  still hs := apply_still hs
  clean hc := by
    rw [← apply_clean f]
    exact hc
  other x p b hp hn := h.noOther hd hp hn

end Allowed

/-! ### The environment that makes the call -/

/-- The data page of a descriptor with an end of a pipe is the page of that pipe. -/
def Paired (w : World E) (e : E) : Prop :=
  ∀ i q p b, w.maps (e, .fd, i) = some q → w.role q = .pipeEnd p b → w.maps (e, .data, i) = some p

omit [DecidableEq E] in
theorem unmapOk_of_fd (h : ∀ x ∈ l, x.1 = .fd) : w.UnmapOk e l := by
  rintro l1 i l2 rfl
  have hdata := h (.data, i) (by simp)
  cases hdata

omit [DecidableEq E] in
theorem unmapOk_pair (i : FdNum) : w.UnmapOk e [(.fd, i), (.data, i)] := by
  intro l1 j l2 hl
  left
  rcases l1 with _ | ⟨a, l1⟩
  · simp at hl
  · rw [List.cons_append, List.cons.injEq] at hl
    obtain ⟨rfl, hl⟩ := hl
    have hj : (Area.data, j) ∈ [(Area.data, i)] := by
      rw [hl]
      simp
    obtain rfl : j = i := by simpa using hj
    exact List.mem_cons_self

theorem UnmapOk.tail (h : w.UnmapOk e (x :: l)) :
    (w.apply (.unmap (e, x))).UnmapOk e l := by
  rintro l1 i l2 rfl
  rcases eq_or_ne x (.fd, i) with rfl | hx
  · right
    intro q hq
    rw [apply_unmap_maps, update_self] at hq
    cases hq
  · refine (h (x :: l1) i l2 rfl).imp (fun hmem => ?_) fun hplain q hq => ?_
    · exact (List.mem_cons.mp hmem).resolve_left hx.symm
    · rcases update_cases hq with ⟨-, hv⟩ | ⟨-, hv⟩
      · cases hv
      · exact hplain q hv

omit [DecidableEq E] in
theorem NewFd.plain (h : w.NewFd e i) (hq : w.maps (e, .fd, i) = some q) :
    w.SoleAt (e, .fd, i) q ∧ w.role q = .plain := by
  obtain ⟨q', hsole, hrole⟩ := h
  cases hsole.1.symm.trans hq
  exact ⟨hsole, hrole⟩

namespace Keeps

variable {w' : World E} (h : w.Keeps w' d)

include h

omit [DecidableEq E] in
theorem soleAt {x : Area × FdNum} {q : ℕ} (hs : w.SoleAt (d, x) q) : w'.SoleAt (d, x) q := by
  refine ⟨(h.maps x).trans hs.1, fun y hy => ?_⟩
  rcases h.old x y q hs.1 hy with hy | ⟨z, hz, hzd⟩
  · exact hs.eq hy
  · exact absurd (congrArg Prod.fst (hs.eq hz)) hzd

omit [DecidableEq E] in
theorem newFd {i : FdNum} (hn : w.NewFd d i) : w'.NewFd d i := by
  obtain ⟨q, hs, hr⟩ := hn
  exact ⟨q, h.soleAt hs, (h.role _ _ hs.1).trans hr⟩

omit [DecidableEq E] in
theorem unmapOk {l : List (Area × FdNum)} (hu : w.UnmapOk d l) : w'.UnmapOk d l := by
  intro l1 i l2 hl
  refine (hu l1 i l2 hl).imp_right fun hplain q hq => ?_
  rw [h.maps] at hq
  exact (h.role _ _ hq).trans (hplain q hq)

omit [DecidableEq E] in
theorem paired (hp : w.Paired d) : w'.Paired d := by
  intro i q p b hq hr
  rw [h.maps] at hq ⊢
  rw [h.role _ _ hq] at hr
  exact hp i q p b hq hr

omit [DecidableEq E] in
theorem actOk {a : Act E} (hact : w.ActOk d a)
    (hcopy : ∀ c l, a = .copy c l → w'.status c = .building ∧
      (∀ e' l', w'.act e' = .copy c l' → e' = d) ∧ ∀ x, w'.maps (c, x) = w.maps (c, x)) :
    w'.ActOk d a := by
  cases a with
  | idle => trivial
  | pipeFd1 i => exact h.newFd hact
  | pipeData i j => exact ⟨hact.1, h.newFd hact.2.1, h.newFd hact.2.2⟩
  | pipeMap i j =>
    obtain ⟨hij, hi, hj, p, hp⟩ := hact
    exact ⟨hij, h.newFd hi, h.newFd hj, p, h.soleAt hp⟩
  | pipeSet i j =>
    obtain ⟨hij, hi, hj, p, hpi, hpj, hp⟩ := hact
    refine ⟨hij, h.newFd hi, h.newFd hj, p, (h.maps _).trans hpi, (h.maps _).trans hpj, ?_⟩
    intro y hy
    rcases h.old _ y p hpi hy with hy | ⟨z, hz, hzd⟩
    · exact hp y hy
    · exact absurd (hp z hz) hzd
  | unmaps l => exact h.unmapOk hact
  | dupUnmap l old new => exact ⟨h.unmapOk hact.1, hact.2.imp_left (h.maps _).trans⟩
  | dupData old new => exact (h.maps _).trans hact
  | dupFd old new =>
    refine ⟨(h.maps _).trans hact.1, fun p hp => ?_⟩
    rw [h.maps] at hp ⊢
    exact hact.2 p hp
  | copy c l =>
    obtain ⟨hstatus, hparent, hmaps⟩ := hcopy c l rfl
    refine ⟨hstatus, hparent, fun x hx => ?_⟩
    rw [hmaps, h.maps]
    exact hact.2.2 x hx

end Keeps

omit [DecidableEq E] in
theorem keeps_of_maps_eq (hmaps : w'.maps = w.maps) (hrole : w'.role = w.role)
    (hstill : w'.still d → w.still d) (hclean : w'.clean d → w.clean d) : w.Keeps w' d where
  maps x := by rw [hmaps]
  role x q _ := by rw [hrole]
  old x y q _ hy := .inl (by rwa [hmaps] at hy)
  still hs := ⟨hstill hs, hmaps⟩
  clean := hclean
  other x p b _ hn y q hq := by
    rw [hmaps] at hq
    rw [hrole]
    exact hn y q hq

theorem keeps_freeMaps (hd : d ≠ e) (hmaps : w'.maps = (w.freeMaps e).maps)
    (hrole : w'.role = w.role) (hstill : ¬ w'.still d) (hclean : w'.clean d → w.clean d) :
    w.Keeps w' d := by
  have hsub : ∀ y q, w'.maps y = some q → w.maps y = some q := by
    intro y q hy
    rw [hmaps, freeMaps] at hy
    dsimp only at hy
    split_ifs at hy
    exact hy
  refine ⟨fun x => ?_, fun x q _ => by rw [hrole], fun x y q _ hy => .inl (hsub y q hy),
    fun hs => absurd hs hstill, hclean, fun x p b _ hn y q hq => ?_⟩
  · rw [hmaps]
    exact if_neg hd
  · rw [hrole]
    exact hn y q (hsub y q hq)

end World

namespace LibStep

open World

variable {a a' : Act E} {f : Effect E}

omit [DecidableEq E] in
theorem allowed (h : LibStep w e (w.act e) f a') (hok : w.ActOk e (w.act e)) : w.Allowed e f := by
  generalize ha : w.act e = a at h hok
  cases h with
  | opened _ hq | pipe _ hq | pipeFd1 _ hq | pipeData hq => exact .alloc hq
  | unmap | dupUnmap => exact .unmap _
  | pipeMap | dupData | dupFd => exact .map (.inl rfl) rfl
  | copy => exact .map (.inr ⟨_, ha⟩) rfl
  | pipeSet hi hj hp =>
    obtain ⟨-, hni, hnj, p, hpi, -, honly⟩ := hok
    cases hpi.symm.trans hp
    exact .setEnds (hni.plain hi).1 (hnj.plain hj).1 honly
  | _ => exact .none

omit [DecidableEq E] in
theorem copy_inv {c : E} {l : List (Area × FdNum)} (h : LibStep w e a f (.copy c l)) :
    ∃ l', a = .copy c l' := by
  cases h with
  | copy => exact ⟨_, rfl⟩

theorem actOk_self (h : LibStep w e a f a') (hlive : w.status e = .live) (hok : w.ActOk e a) :
    (w.apply f).ActOk e a' := by
  cases h with
  | opened | pipeSet | unmapped | dupFd | copyErr => trivial
  | pipe hi hq => exact newFd_alloc hq _
  | @pipeFd1 i j q hj hq =>
    obtain ⟨q', hsole, -⟩ := id hok
    have hij : i ≠ j := by
      rintro rfl
      rw [hsole.1] at hj
      cases hj
    exact ⟨hij, NewFd.alloc hok hq (by simpa using hij), newFd_alloc hq _⟩
  | pipeErr1 => exact unmapOk_of_fd (by simp)
  | pipeData hq =>
    obtain ⟨hij, hi, hj⟩ := hok
    exact ⟨hij, hi.alloc hq (by simp), hj.alloc hq (by simp), _, soleAt_alloc hq _⟩
  | pipeErr2 => exact unmapOk_of_fd (by simp)
  | @pipeMap i j =>
    obtain ⟨hij, hi, hj, p, hp⟩ := hok
    have hne : ∀ k q, w.SoleAt (e, .fd, k) q → w.maps (e, .data, i) ≠ some q := by
      intro k q hsole hq
      have := hsole.eq hq
      simp at this
    refine ⟨hij, hi.map (hne i), hj.map (hne j), p, ?_, ?_, fun y hy => ?_⟩
    · have hdata : (e, Area.data, i) ≠ (e, Area.data, j) := by simpa using hij
      rw [apply_map_maps, update_of_ne hdata, hp.1]
    · rw [apply_map_maps, update_self, hp.1]
    · rcases update_cases hy with ⟨rfl, -⟩ | ⟨-, hv⟩
      · rfl
      · rw [hp.eq hv]
  | @pipeErr3 i j =>
    intro l1 k l2 hl
    rcases l1 with _ | ⟨x, l1⟩
    · obtain rfl : i = k := by simpa using congrArg (fun l => l.head?.map Prod.snd) hl
      exact .inr fun q hq => (hok.2.1.plain hq).2
    · have hmem : (Area.data, k) ∈ [(Area.fd, j), (Area.fd, i)] := by
        rw [(List.cons.inj hl).2]
        simp
      simp at hmem
  | close => exact closing_unmapOk _ _
  | unmap => exact UnmapOk.tail hok
  | dupOver => exact ⟨closing_unmapOk _ _, .inr (fd_mem_closing _ _)⟩
  | dup hold hnew => exact ⟨unmapOk_of_fd (by simp), .inl hnew⟩
  | @dupUnmap x l old new =>
    refine ⟨hok.1.tail, ?_⟩
    rcases eq_or_ne x (.fd, new) with rfl | hx
    · left
      rw [apply_unmap_maps, update_self]
    · have hne : (e, Area.fd, new) ≠ (e, x) := fun heq => hx (congrArg Prod.snd heq).symm
      rw [apply_unmap_maps, update_of_ne hne]
      exact hok.2.imp_right fun hmem => (List.mem_cons.mp hmem).resolve_left hx.symm
  | dupUnmapped => exact hok.2.resolve_right (by simp)
  | @dupData old new p hp =>
    have hne : (e, Area.fd, new) ≠ (e, Area.data, new) := by simp
    refine ⟨?_, fun p' hp' => ?_⟩
    · rw [apply_map_maps, update_of_ne hne]
      exact hok
    · rw [apply_map_maps, update_self]
      rcases eq_or_ne old new with rfl | hon
      · rwa [apply_map_maps, update_self] at hp'
      · have hdata : (e, Area.data, old) ≠ (e, Area.data, new) := by simpa using hon
        rwa [apply_map_maps, update_of_ne hdata] at hp'
  | dupNoData hp =>
    refine ⟨hok, fun p hp' => ?_⟩
    rw [show w.apply .none = w from rfl, hp] at hp'
    cases hp'
  | dupErr1 | dupErr2 => exact unmapOk_pair _
  | @copy c x l =>
    obtain ⟨hc, hparent, hsame⟩ := hok
    have hce : c ≠ e := by
      rintro rfl
      rw [hlive] at hc
      cases hc
    refine ⟨hc, hparent, fun y hy => ?_⟩
    have hey : (e, y) ≠ (c, x) := fun heq => hce (congrArg Prod.fst heq).symm
    rw [apply_map_maps, update_of_ne hey]
    rcases eq_or_ne y x with rfl | hyx
    · rw [update_self]
    · have hcy : (c, y) ≠ (c, x) := fun heq => hyx (congrArg Prod.snd heq)
      rw [update_of_ne hcy]
      exact hsame y (by simp [hyx, hy])

/-- A call never takes the page of a pipe away from under an end of it. -/
theorem paired_self (h : LibStep w e a f a') (hlive : w.status e = .live) (hok : w.ActOk e a)
    (hp : w.Paired e) : (w.apply f).Paired e := by
  intro i q p b hq hr
  have hfd : ∀ j k : FdNum, (e, Area.fd, j) ≠ (e, Area.data, k) := by simp
  -- a new Fd page is plain, and an old one is what it was
  have halloc : ∀ {k q'}, w.Fresh q' →
      (w.apply (.alloc (e, .fd, k) q')).maps (e, .fd, i) = some q →
      (w.apply (.alloc (e, .fd, k) q')).role q = .pipeEnd p b →
      (w.apply (.alloc (e, .fd, k) q')).maps (e, .data, i) = some p := by
    intro k q' hfresh hq hr
    rcases update_cases hr with ⟨-, hr⟩ | ⟨hne, hr⟩
    · cases hr
    · rw [apply_alloc_maps, update_of_ne (hfd k i).symm]
      rcases update_cases hq with ⟨-, hv⟩ | ⟨-, hv⟩
      · exact absurd (Option.some.inj hv).symm hne
      · exact hp i q p b hv hr
  have hunmap : ∀ {x l}, w.UnmapOk e (x :: l) →
      (w.apply (.unmap (e, x))).maps (e, .fd, i) = some q → w.role q = .pipeEnd p b →
      (w.apply (.unmap (e, x))).maps (e, .data, i) = some p := by
    intro x l hu hq hr
    obtain ⟨-, hv⟩ | ⟨-, hv⟩ := update_cases hq
    · cases hv
    have hdata : (e, Area.data, i) ≠ (e, x) := by
      intro heq
      obtain rfl : (Area.data, i) = x := congrArg Prod.snd heq
      have hplain := (hu [] i l rfl).resolve_left (by simp) q hv
      rw [hplain] at hr
      cases hr
    rw [apply_unmap_maps, update_of_ne hdata]
    exact hp i q p b hv hr
  -- the page of a descriptor without an end of a pipe is overwritten
  have hmap : ∀ {j k : FdNum}, (∀ q, w.maps (e, .fd, k) = some q → w.role q = .plain) →
      (w.apply (.map (e, .data, j) (e, .data, k))).maps (e, .fd, i) = some q →
      w.role q = .pipeEnd p b →
      (w.apply (.map (e, .data, j) (e, .data, k))).maps (e, .data, i) = some p := by
    intro j k hplain hq hr
    rw [apply_map_maps] at hq ⊢
    rw [update_of_ne (hfd i k)] at hq
    rcases eq_or_ne i k with rfl | hik
    · rw [hplain q hq] at hr
      cases hr
    · rw [update_of_ne (by simpa using hik)]
      exact hp i q p b hq hr
  cases h with
  | opened _ hfresh | pipe _ hfresh | pipeFd1 _ hfresh => exact halloc hfresh hq hr
  | @pipeData k j q' hfresh =>
    rw [apply_alloc_maps, update_of_ne (hfd i k)] at hq
    have hne : q ≠ q' := fun hqq => hfresh _ (hqq ▸ hq)
    rw [apply_alloc_role, update_of_ne hne] at hr
    rcases eq_or_ne i k with rfl | hik
    · rw [(hok.2.1.plain hq).2] at hr
      cases hr
    · rw [apply_alloc_maps, update_of_ne (by simpa using hik)]
      exact hp i q p b hq hr
  | pipeMap => exact hmap (fun q hq => (hok.2.2.1.plain hq).2) hq hr
  | @pipeSet k j q0 q1 p' hk hj hp' =>
    obtain ⟨-, hnk, hnj, p'', hpk, hpj, -⟩ := hok
    cases hpk.symm.trans hp'
    have hq' : w.maps (e, .fd, i) = some q := hq
    change w.maps (e, .data, i) = some p
    rcases update_cases hr with ⟨rfl, hv⟩ | ⟨-, hv⟩
    · obtain rfl : i = j := by simpa using (hnj.plain hj).1.eq hq'
      rw [hpj, (Role.pipeEnd.inj hv).1]
    rcases update_cases hv with ⟨rfl, hv'⟩ | ⟨-, hv'⟩
    · obtain rfl : i = k := by simpa using (hnk.plain hk).1.eq hq'
      rw [hpk, (Role.pipeEnd.inj hv').1]
    exact hp i q p b hq' hv'
  | unmap => exact hunmap hok hq hr
  | dupUnmap => exact hunmap hok.1 hq hr
  | @dupData old new p' hp' =>
    refine hmap (fun q hq => ?_) hq hr
    rw [show w.maps (e, .fd, new) = none from hok] at hq
    cases hq
  | @dupFd old new q' hq' =>
    rw [apply_map_maps, update_of_ne (hfd new i).symm]
    rcases update_cases hq with ⟨heq, hv⟩ | ⟨-, hv⟩
    · obtain rfl : i = new := by simpa using heq
      exact hok.2 p (hp old q p b hv hr)
    · exact hp i q p b hv hr
  | @copy c x l =>
    have hce : e ≠ c := by
      rintro rfl
      have hc := hok.1
      rw [hlive] at hc
      cases hc
    have hne : ∀ y : Area × FdNum, (e, y) ≠ (c, x) := fun y heq => hce (congrArg Prod.fst heq)
    rw [apply_map_maps, update_of_ne (hne _)] at hq ⊢
    exact hp i q p b hq hr
  | _ => exact hp i q p b hq hr

end LibStep

end Invariant

end LinuxStudy.User
