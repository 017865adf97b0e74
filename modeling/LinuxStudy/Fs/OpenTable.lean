import LinuxStudy.Fs.Clients

/-!
# The open-file table

Clients can unmap the page of an open file at any moment, also while `openfile_alloc` looks through
the table and until `serve_open` sends a page. So a request to open a file is cut into steps here:
each entry that is looked at, the calls of the file system with the entry that was found, and the
page that is sent. Clients act between any two of them.

The page of an entry is mapped by the server from its first use on. A page that no client maps comes
to a client only if it is sent. A client can send the page of an open file as its request page too;
the server then maps that page a second time, at `fsreq`, until the request is done, and
`openfile_lookup` takes an entry to be in use by a client if its count is above 1. The bytes of such
a page are not the same at the two addresses here: both may be anything between two steps.
-/

namespace LinuxStudy.Fs

open Jos
open Function (update update_self update_of_ne)
open Proc (pure_eq_some bind_eq_some modify_eq_some)
open ByteMem Proc
open Option (map_some map_eq_some_iff)

def serveInit : Fin maxopen → OpenFile :=
  fun i => ⟨BitVec.ofNat 32 i, 0, if i.val = 0 then 1#32 else 0#32⟩

/-- Where the server is in a request to open a file. -/
inductive Ctl
  /-- Between two requests. -/
  | idle
  /-- `openfile_alloc` looks at entry `j` next. -/
  | scan (mem accept : Bool) (path : List Byte) (j : ℕ)
  /-- `openfile_alloc` has returned an entry. -/
  | fill (accept : Bool) (path : List Byte) (i : Fin maxopen)
  /-- `serve_open` has returned, and the page is to be sent. -/
  | send (accept : Bool) (i : Fin maxopen)
  deriving DecidableEq

/-- After `openfile_alloc`. -/
def Ctl.alloced (accept : Bool) (path : List Byte) : Option (Fin maxopen) → Ctl
  | none => .idle
  | some i => .fill accept path i

/-- After `serve_open`. -/
def Ctl.opened (accept : Bool) : Option (Fin maxopen) → Ctl
  | none => .idle
  | some i => .send accept i

/-- The open in progress has taken the entry. -/
def Ctl.Holds (i : Fin maxopen) : Ctl → Prop
  | .fill _ _ k | .send _ k => k = i
  | _ => False

structure Sys where
  serv : Serv
  ctl : Ctl
  /-- How often `openfile_alloc` has taken each entry. -/
  allocs : Fin maxopen → ℕ
  /-- The entry whose page is the request page, if it is one of these pages. -/
  req : Option (Fin maxopen)

/-- How often the server and its clients map the page of an entry. -/
def Sys.own (s : Sys) (i : Fin maxopen) : ℕ := if s.req = some i then 2 else 1
def Sys.mappers (s : Sys) (i : Fin maxopen) : ℕ := s.serv.refs i - s.own i

/-- The request is done, and its page is unmapped. -/
def Sys.done (s : Sys) : Sys :=
  { s with
    serv := { s.serv with refs :=
      fun i => if s.req = some i then s.serv.refs i - 1 else s.serv.refs i }
    req := none }

/-- The next step of a request to open a file. -/
def openTurn (s : Sys) : Option Sys :=
  match s.ctl with
  | .idle => none
  | .scan mem accept path j =>
    if j < maxopen then
      (openfileAllocStep mem j s.serv).map fun p =>
        match p.1 with
        | none => { s with serv := p.2, ctl := .scan mem accept path (j + 1) }
        | some (r, i) =>
          { s with
            serv := p.2
            ctl := .alloced accept path (if r < 0 then none else some i)
            allocs := if s.serv.refs i = 0 ∧ mem = false then s.allocs
              else update s.allocs i (s.allocs i + 1) }
    else some { s with ctl := .idle }
  | .fill accept path i =>
    (serveOpenAt path i s.serv).map fun p =>
      { s with serv := p.2, ctl := .opened accept p.1.2 }
  | .send accept i => (sendPage accept i s.serv).map fun p => { s with serv := p.2, ctl := .idle }

def openNext (s : Sys) : Option Sys :=
  (openTurn s).map fun t => match t.ctl with
    | .idle => t.done
    | _ => t

inductive Event
  | clients
  /-- A client sends the page of an open file as the next request page. -/
  | reqPage (i : Fin maxopen)
  | request (q : Request)
  /-- The open in progress goes on. -/
  | step

def SysStep (s : Sys) (e : Event) (s' : Sys) : Prop :=
  match e with
  | .clients => ∃ t, Meddles s.own s.serv t ∧ s' = { s with serv := t }
  | .reqPage i => s.ctl = .idle ∧ s.req = none ∧ 0 < s.mappers i ∧
    s' = { s with serv := { s.serv.setRefs i (s.serv.refs i + 1) with
                    fs := s.serv.fs.poke fsreq pgsize fun x => s.serv.fs.mem (oFd i + (x - fsreq)) }
                  req := some i }
  | .request (.fsreqOpen mem accept) =>
    s.ctl = .idle ∧ s' = { s with ctl := .scan mem accept (reqPath s.serv.fs.mem) 0 }
  | .request q => s.ctl = .idle ∧ ∃ r t, serve q s.serv = some (r, t) ∧
      s' = Sys.done { s with serv := t }
  | .step => openNext s = some s'

/-- No client gives up the last mapping of a page while it is the request page. -/
def CleanStep (s : Sys) (e : Event) (s' : Sys) : Prop :=
  SysStep s e s' ∧ (e = .clients → ∀ i, s.req = some i → 0 < s.mappers i → 0 < s'.mappers i)

/-! ### What the handlers leave alone -/

/-- The counts, the file ids, and the entries other than `i`. -/
structure KeepsIds (i : Option (Fin maxopen)) (s s' : Serv) : Prop where
  refs : s'.refs = s.refs
  others : ∀ k, i ≠ some k → s'.opentab k = s.opentab k
  fileid : ∀ k, (s'.opentab k).fileid = (s.opentab k).fileid

section Handlers

variable {o : Option (Fin maxopen)} {α : Type}

instance : Std.Refl (KeepsIds o) := ⟨fun _ => ⟨rfl, fun _ _ => rfl, fun _ => rfl⟩⟩

instance : IsTrans Serv (KeepsIds o) where
  trans _ _ _ h h' := ⟨h'.refs.trans h.refs, fun k hk => (h'.others k hk).trans (h.others k hk),
    fun k => (h'.fileid k).trans (h.fileid k)⟩

theorem access_keepsIds (x : FsM α) : Proc.Within (KeepsIds o) (access x) := by
  intro s a s' h
  obtain ⟨t, _, rfl⟩ := access_eq_some.mp h
  exact ⟨rfl, fun _ _ => rfl, fun _ => rfl⟩

theorem call_keepsIds (op : FsOp) (x : FsM α) : Proc.Within (KeepsIds o) (call op x) := by
  intro s a s' h
  obtain ⟨t, _, rfl⟩ := call_eq_some.mp h
  exact ⟨rfl, fun _ _ => rfl, fun _ => rfl⟩

theorem withOpenFile_keepsIds {k : Fin maxopen → ServM Int}
    (hk : ∀ i, Proc.Within (KeepsIds o) (k i)) : Proc.Within (KeepsIds o) (withOpenFile k) := by
  intro s r s' h
  rcases withOpenFile_cases h with ⟨_, _, rfl⟩ | ⟨_, h⟩
  · exact Std.Refl.refl _
  · exact hk _ s r s' h

theorem advance_keepsIds (i : Fin maxopen) (r : Int) : Proc.Within (KeepsIds o) (advance i r) :=
  .ite (.pure r) (.bind (access_keepsIds _) fun _ => .bind (access_keepsIds _) fun _ => .pure r)

theorem serve_keepsIds {q : Request} (hq : ∀ mem accept, q ≠ .fsreqOpen mem accept) :
    Proc.Within (KeepsIds o) (serve q) := by
  cases q with
  | fsreqOpen mem accept => exact absurd rfl (hq mem accept)
  | fsreqSetSize =>
    exact withOpenFile_keepsIds fun _ =>
      .bind (access_keepsIds _) fun _ => .bind .get fun _ => call_keepsIds _ _
  | fsreqRead | fsreqWrite =>
    exact withOpenFile_keepsIds fun i =>
      .bind (access_keepsIds _) fun _ => .bind (access_keepsIds _) fun _ =>
      .bind .get fun _ => .bind (call_keepsIds _ _) fun r => advance_keepsIds i r
  | fsreqStat =>
    exact withOpenFile_keepsIds fun _ =>
      .bind .get fun _ => .bind (access_keepsIds _) fun _ => .pure 0
  | fsreqFlush =>
    exact withOpenFile_keepsIds fun _ =>
      .bind .get fun _ => .bind (call_keepsIds _ _) fun _ => .pure 0

theorem openOrCreate_keepsIds (path : List Byte) (omode : Word) :
    Proc.Within (KeepsIds o) (openOrCreate path omode) := by
  refine .ite (.bind (call_keepsIds _ _) fun x => ?_) (call_keepsIds _ _)
  cases x with
  | ok f => exact .pure _
  | error r => exact .ite (call_keepsIds _ _) (.pure _)

theorem openfileFill_keepsIds (i : Fin maxopen) (f : ℕ) (omode : Word) :
    Proc.Within (KeepsIds (some i)) (openfileFill i f omode) := by
  refine .bind (fun s _ s' h => ?_) fun _ => .bind .get fun _ => access_keepsIds _
  cases h
  refine ⟨rfl, fun k hk => Serv.setFile_ne fun hno => hk (by rw [hno]), fun k => ?_⟩
  by_cases hk : k = i
  · rw [hk, Serv.setFile_self]
  · rw [Serv.setFile_ne hk]

theorem serveOpenAt_keepsIds (path : List Byte) (i : Fin maxopen) :
    Proc.Within (KeepsIds (some i)) (serveOpenAt path i) := by
  refine .bind (access_keepsIds _) fun omode => .bind (openOrCreate_keepsIds _ _) fun x => ?_
  cases x with
  | error r => exact .pure _
  | ok f =>
    refine .bind (.when (.bind (call_keepsIds _ _) fun _ => .pure ())) fun _ =>
      .bind (call_keepsIds _ _) fun y => ?_
    cases y with
    | error r => exact .pure _
    | ok f' => exact .bind (openfileFill_keepsIds i f' omode) fun _ => .pure _

/-- The page that is sent is the one of the entry, and has its id. -/
theorem serveOpenAt_page {path : List Byte} {i k : Fin maxopen} {s s' : Serv} {r : Int}
    (h : serveOpenAt path i s = some ((r, some k), s')) :
    k = i ∧ s'.fs.view.word (fdFileId i) = (s'.opentab i).fileid := by
  obtain ⟨omode, s1, _, h⟩ := bind_eq_some.mp h
  obtain ⟨x, s2, _, h⟩ := bind_eq_some.mp h
  cases x with
  | error e => cases (pure_eq_some.mp h).1
  | ok f =>
    simp only [bind_eq_some] at h
    obtain ⟨_, s3, _, y, s4, _, h⟩ := h
    cases y with
    | error e => cases (pure_eq_some.mp h).1
    | ok f' =>
      simp only [openfileFill, bind_eq_some, modify_eq_some, get_eq_some, pure_eq_some] at h
      obtain ⟨_, s5, ⟨_, _, rfl, _, _, ⟨rfl, rfl⟩, haccess⟩, hr, rfl⟩ := h
      obtain ⟨t, hstores, rfl⟩ := access_eq_some.mp haccess
      simp only [bind_eq_some] at hstores
      obtain ⟨_, t1, h1, _, t2, h2, h3⟩ := hstores
      have hbelow : fdFileId i = oFd i + 12 ∧ fdOmode i = oFd i + 8 := ⟨rfl, rfl⟩
      refine ⟨by cases hr; rfl, ?_⟩
      rw [(storew_shows h3).view, word_putWord (by omega), (storew_shows h2).view,
        word_putWord (by omega), (storew_shows h1).view, word_putWord_self]

end Handlers

/-! ### A request without clients in between -/

section Atomic

variable {s s' : Serv} {mem accept : Bool} {path : List Byte}
  {allocs : Fin maxopen → ℕ} {a b c : Sys} {n m : ℕ}

theorem openNext_of_turn (h : openTurn a = some b) (hreq : b.req = none) : openNext a = some b := by
  have hdone : b.done = b := by
    obtain ⟨_, _, _, _⟩ := b
    cases hreq
    rfl
  rw [openNext, h, map_some, hdone]
  cases b.ctl <;> rfl

theorem steps_trans (h : Run SysStep a (.replicate n .step) b)
    (h' : Run SysStep b (.replicate m .step) c) : Run SysStep a (.replicate (n + m) .step) c := by
  rw [List.replicate_add]
  exact h.append h'

theorem steps_one (h : openTurn a = some b) (hreq : b.req = none) :
    Run SysStep a (.replicate 1 .step) b :=
  .single (openNext_of_turn h hreq)

/-- How often the entries are taken shows in their ids. -/
def Counted (s s' : Serv) (allocs allocs' : Fin maxopen → ℕ) : Prop :=
  ∀ i, allocs' i = allocs i + if (s'.opentab i).fileid = (s.opentab i).fileid then 0 else 1

theorem Counted.refl : Counted s s allocs allocs := fun _ => by rw [if_pos rfl, Nat.add_zero]

theorem Taken.counted {i : Fin maxopen} (h : Taken s i s') :
    Counted s s' allocs (update allocs i (allocs i + 1)) := by
  intro k
  rw [h.opentab]
  by_cases hk : k = i
  · subst hk
    rw [update_self, update_self, if_neg]
    intro hno
    have := congrArg BitVec.toNat hno
    simp only [BitVec.toNat_add, BitVec.toNat_ofNat] at this
    omega
  · rw [update_of_ne hk, update_of_ne hk, if_pos rfl, Nat.add_zero]

theorem scan_run {n j : ℕ} {o : Option (Int × Fin maxopen)} (hj : j + n = maxopen)
    (h : Proc.search (openfileAllocStep mem) n j s = some (o, s')) :
    ∃ m allocs', Run SysStep ⟨s, .scan mem accept path j, allocs, none⟩ (.replicate m .step)
      ⟨s', .alloced accept path (o.bind fun b => if b.1 < 0 then none else some b.2),
      allocs', none⟩ ∧ Counted s s' allocs allocs' := by
  induction n generalizing j s with
  | zero =>
    cases h
    refine ⟨1, allocs, steps_one ?_ rfl, .refl⟩
    simp only [openTurn, if_neg (show ¬ j < maxopen by omega)]
    rfl
  | succ n ih =>
    obtain ⟨o', t, hstep, hnext⟩ := bind_eq_some.mp h
    have hlt : j < maxopen := by omega
    cases o' with
    | some b =>
      cases hnext
      refine ⟨1, if s.refs b.2 = 0 ∧
        mem = false then allocs else update allocs b.2 (allocs b.2 + 1), steps_one ?_ rfl, ?_⟩
      · simp only [openTurn, if_pos hlt, hstep, map_some]
        rfl
      · rcases openfileAllocStep_cases hstep hlt with ⟨hno, _⟩ | ⟨hb, rfl, hmem⟩ | ⟨_, hmem, ht, hb⟩
        · cases hno
        · obtain rfl := Option.some.inj hb
          rw [if_pos hmem]
          exact .refl
        · obtain rfl := Option.some.inj hb
          rw [if_neg hmem]
          exact ht.counted
    | none =>
      rcases openfileAllocStep_cases hstep hlt with ⟨_, rfl, _⟩ | ⟨hno, _⟩ | ⟨_, _, _, hno⟩
      · obtain ⟨m, allocs', hrest, hcount⟩ := ih (by omega) hnext
        refine ⟨1 + m, allocs', steps_trans (steps_one ?_ rfl) hrest, hcount⟩
        simp only [openTurn, if_pos hlt, hstep, map_some]
      · cases hno
      · cases hno

/-- **The steps make up the request**: an open that is served at once is a run of them. -/
theorem serve_run {r : Int} (h : serve (.fsreqOpen mem accept) s = some (r, s')) :
    ∃ n allocs',
    Run SysStep ⟨s, .idle, allocs, none⟩ (.request (.fsreqOpen mem accept) :: .replicate n .step)
      ⟨s', .idle, allocs', none⟩ ∧ Counted s s' allocs allocs' := by
  obtain ⟨⟨r', o⟩, t, hopen, h⟩ := bind_eq_some.mp h
  rw [serveOpen, bind_of_eq get_apply, bind_eq_some] at hopen
  obtain ⟨⟨r1, o1⟩, s1, halloc, hopen⟩ := hopen
  obtain ⟨found, s2, hscan, halloc⟩ := bind_eq_some.mp halloc
  obtain ⟨m, allocs', hrun, hcount⟩ : ∃ m allocs', Run SysStep
      ⟨s, .scan mem accept (reqPath s.fs.mem) 0, allocs, none⟩ _ ⟨_, _, allocs', none⟩ ∧ _ :=
    scan_run (by decide) hscan
  obtain ⟨rfl, hctl⟩ : s2 = s1 ∧ (found.bind fun b => if b.1 < 0 then none else some b.2) = o1 := by
    cases found with
    | none | some =>
      obtain ⟨hr, rfl⟩ := pure_eq_some.mp halloc
      exact ⟨rfl, (Prod.mk.inj hr).2⟩
  rw [hctl] at hrun
  suffices hrest : ∃ k, Run SysStep ⟨s2, .alloced accept (reqPath s.fs.mem) o1, allocs', none⟩
    (.replicate k .step)
      ⟨s', .idle, allocs', none⟩ ∧ ∀ i, (s'.opentab i).fileid = (s2.opentab i).fileid by
    obtain ⟨k, hrest, hids⟩ := hrest
    have hstart : SysStep ⟨s, .idle, allocs, none⟩ (.request (.fsreqOpen mem accept))
        ⟨s, .scan mem accept (reqPath s.fs.mem) 0, allocs, none⟩ := ⟨rfl, rfl⟩
    exact ⟨m + k, allocs',
      (Run.single hstart).append (steps_trans hrun hrest), fun i => by rw [hids, hcount i]⟩
  cases o1 with
  | none =>
    obtain ⟨hr, rfl⟩ := pure_eq_some.mp hopen
    cases hr
    cases h
    exact ⟨0, .nil _, fun _ => rfl⟩
  | some i =>
    have hfill :
      Run SysStep ⟨s2, .fill accept (reqPath s.fs.mem) i, allocs', none⟩ (.replicate 1 .step)
        ⟨t, .opened accept o, allocs', none⟩ := by
      refine steps_one ?_ rfl
      simp only [openTurn, hopen, map_some]
    have hids := (serveOpenAt_keepsIds _ i s2 _ t hopen).fileid
    cases o with
    | none =>
      cases h
      exact ⟨1, hfill, hids⟩
    | some k =>
      simp only [bind_eq_some, pure_eq_some] at h
      obtain ⟨_, v, hsend, _, rfl⟩ := h
      refine ⟨1 + 1, steps_trans hfill (steps_one ?_ rfl), fun j => ?_⟩
      · simp only [openTurn, Ctl.opened, hsend, map_some]
      · rcases when_eq_some.mp hsend with ⟨_, hsend⟩ | ⟨_, rfl⟩
        · cases hsend
          exact hids j
        · exact hids j

/-- A request for the file of the disk. -/
theorem serve_run_first : ∃ s s' n allocs', serve (.fsreqOpen true true) s = some (0, s') ∧
    Run SysStep ⟨s, .idle, fun _ => 0, none⟩ (.request (.fsreqOpen true true) :: .replicate n .step)
      ⟨s', .idle, allocs', none⟩ ∧ Counted s s' (fun _ => 0) allocs' := by
  obtain ⟨⟨_, s'⟩, hserve, rfl⟩ : ∃ p ∈ serve (.fsreqOpen true true)
      ⟨serverOn (fileDisk.putWord fsreq 0x61#32), serveInit, fun _ => 0, []⟩,
        p.1 = 0 := by decide +kernel
  obtain ⟨n, allocs', hrun⟩ := serve_run hserve
  exact ⟨_, s', n, allocs', hserve, hrun⟩

end Atomic

/-! ### What a step does to an entry -/

/-- Every entry has ids of its own, and the one that an open has taken is mapped by the server only.
    A page that is the request page too is mapped twice. -/
structure TableOk (s : Sys) : Prop where
  slot : ∀ i, slotOf (s.serv.opentab i).fileid = i
  held : ∀ i, s.ctl.Holds i → s.serv.refs i = 1
  req : ∀ i, s.req = some i → 1 < s.serv.refs i

/-- What a step does to an entry. -/
inductive StepAt (i : Fin maxopen) (s s' : Sys) : Prop
  /-- The id stays. An entry that a client uses stays as it is, and an entry that nobody uses gets
      no client. -/
  | leave : (s'.serv.opentab i).fileid = (s.serv.opentab i).fileid → s'.allocs i = s.allocs i →
      (1 < s.serv.refs i → s'.serv.opentab i = s.serv.opentab i) →
      (s.serv.refs i ≤ 1 → ¬ s.ctl.Holds i → s'.serv.refs i ≤ 1 ∧ ¬ s'.ctl.Holds i) →
      (s'.ctl.Holds i → s'.serv.refs i = 1) → (s'.req = some i → 1 < s'.serv.refs i) → StepAt i s s'
  /-- `openfile_alloc` takes the entry. -/
  | take : s.serv.refs i ≤ 1 → s'.serv.refs i = 1 →
      (s'.serv.opentab i).fileid = (s.serv.opentab i).fileid + 1024#32 →
      s'.allocs i = s.allocs i + 1 → s'.req ≠ some i → StepAt i s s'

section Entry

variable {s s' : Sys} {e : Event} {i : Fin maxopen}

theorem StepAt.of_same (hok : TableOk s)
    (hkeep : KeepsIds none s.serv s'.serv) (hallocs : s'.allocs = s.allocs)
    (hctl : ∀ k, s'.ctl.Holds k → s.ctl.Holds k) (hreq : s'.req = s.req) : StepAt i s s' := by
  refine .leave (hkeep.fileid i) (by rw [hallocs])
    (fun _ => hkeep.others i nofun) (fun h1 h2 => ?_) (fun h => ?_)
    fun h => ?_
  · rw [hkeep.refs]
    exact ⟨h1, fun h => h2 (hctl i h)⟩
  · rw [hkeep.refs]
    exact hok.held i (hctl i h)
  · rw [hkeep.refs]
    exact hok.req i (hreq ▸ h)

theorem refs_done (h : s.req ≠ some i) : s.done.serv.refs i = s.serv.refs i := if_neg h

/-- The end of a request. -/
theorem StepAt.done (h : StepAt i s s') (hidle : s'.ctl = .idle) : StepAt i s s'.done := by
  have hholds : ¬ s'.ctl.Holds i := by
    rw [hidle]
    exact id
  have hle : s'.done.serv.refs i ≤ s'.serv.refs i := by
    rw [Sys.done]
    dsimp only
    split
    · exact Nat.sub_le _ _
    · exact le_refl _
  cases h with
  | leave hid hal hused hfree _ _ =>
    exact .leave hid hal hused (fun h1 h2 => ⟨hle.trans (hfree h1 h2).1, hholds⟩) (fun h =>
      absurd h hholds) nofun
  | take hrefs hone hid hal hne => exact .take hrefs ((refs_done hne).trans hone) hid hal nofun

theorem meddles_at (hok : TableOk s) {t : Serv} (h : Meddles s.own s.serv t) :
    StepAt i s { s with serv := t } := by
  have hown : 1 ≤ s.own i := by
    rw [Sys.own]
    split <;> decide
  refine .leave (by rw [h.opentab]) rfl (fun _ => by rw [h.opentab]) (fun h1 h2 => ?_)
    (fun hheld => ?_) fun hreq => ?_
  · rw [h.mine i (h1.trans hown)]
    exact ⟨h1, h2⟩
  · have hone := hok.held i hheld
    rw [h.mine i (hone.le.trans hown), hone]
  · have htwo : s.own i = 2 := if_pos hreq
    have hmine := h.mine i
    have hshared := h.shared i
    have := hok.req i hreq
    show 1 < t.refs i
    omega

variable {mem accept : Bool} {path : List Byte} {j : ℕ} {k : Fin maxopen}

/-- One step of the scan: the next entry, the end of it, or an entry that is taken. -/
theorem scan_cases (hctl : s.ctl = .scan mem accept path j)
    (h : openTurn s = some s') :
    s' = { s with ctl := .scan mem accept path (j + 1) } ∨ s' = { s with ctl := .idle } ∨
      ∃ k, s.serv.refs k ≤ 1 ∧ Taken s.serv k s'.serv ∧
        s'.allocs = update s.allocs k (s.allocs k + 1) ∧ s'.req = s.req ∧
        (s'.ctl = .idle ∨ s'.ctl = .fill accept path k) := by
  simp only [openTurn, hctl] at h
  split at h
  · next hj =>
    obtain ⟨⟨o, t⟩, hstep, rfl⟩ := map_eq_some_iff.mp h
    rcases openfileAllocStep_cases hstep hj with ⟨rfl, rfl, _⟩ | ⟨rfl, rfl, hno⟩ | ⟨hrefs,
      hyes, ht, ho⟩
    · exact .inl rfl
    · refine .inr (.inl ?_)
      simp only [if_pos hno, if_pos (show -eNoMem < 0 by decide)]
      rfl
    · refine .inr (.inr ⟨⟨j, hj⟩, hrefs, ?_⟩)
      generalize BitVec.toInt ((s.serv.opentab ⟨j, hj⟩).fileid + 1024#32) = r at ho
      subst ho
      refine ⟨ht, if_neg hyes, rfl, ?_⟩
      by_cases hneg : r < 0
      · exact .inl (by simp only [if_pos hneg]; rfl)
      · exact .inr (by simp only [if_neg hneg]; rfl)
  · exact .inr (.inl (Option.some.inj h).symm)

theorem scan_at (hok : TableOk s) (hctl : s.ctl = .scan mem accept path j)
    (h : openTurn s = some s') : StepAt i s s' := by
  rcases scan_cases hctl h with rfl | rfl | ⟨k, hrefs, ht, hallocs, hreq, hnext⟩
  · exact .of_same hok (Std.Refl.refl _) rfl (fun _ h => h.elim) rfl
  · exact .of_same hok (Std.Refl.refl _) rfl (fun _ h => h.elim) rfl
  · by_cases hik : i = k
    · subst hik
      refine .take hrefs ?_ ?_ ?_ fun hno => ?_
      · rw [ht.refs, update_self]
      · rw [ht.opentab, update_self]
      · rw [hallocs, update_self]
      · exact absurd hrefs (Nat.not_le.mpr (hok.req i (hreq ▸ hno)))
    · have hholds : ¬ s'.ctl.Holds i := by
        rcases hnext with hc | hc <;> rw [hc]
        · exact id
        · exact fun hno => hik hno.symm
      have htab : s'.serv.opentab i = s.serv.opentab i := by
        rw [ht.opentab, update_of_ne hik]
      have hsame : s'.serv.refs i = s.serv.refs i := by
        rw [ht.refs, update_of_ne hik]
      refine .leave (by rw [htab]) (by rw [hallocs, update_of_ne hik]) (fun _ => htab)
        (fun h1 _ => ⟨hsame ▸ h1, hholds⟩) (fun hc => absurd hc hholds) fun h => ?_
      rw [hsame]
      exact hok.req i (hreq ▸ h)

theorem fill_at (hok : TableOk s) (hctl : s.ctl = .fill accept path k) (h : openTurn s = some s') :
    StepAt i s s' := by
  have hone : s.serv.refs k = 1 := hok.held k (by rw [hctl]; rfl)
  simp only [openTurn, hctl] at h
  obtain ⟨⟨⟨r, o⟩, t⟩, hopen, rfl⟩ := map_eq_some_iff.mp h
  have hkeep := serveOpenAt_keepsIds path k s.serv _ t hopen
  have hholds : ∀ j, (Ctl.opened accept o).Holds j → j = k := by
    intro j hj
    cases o with
    | none => exact hj.elim
    | some k' =>
      obtain rfl := (serveOpenAt_page hopen).1
      exact hj.symm
  refine .leave (hkeep.fileid i) rfl (fun hused => hkeep.others i ?_)
    (fun h1 h2 => ⟨?_, fun hj => h2 ?_⟩) (fun hj => ?_)
    fun hreq => ?_
  · rintro hki
    cases hki
    omega
  · rw [hkeep.refs]
    exact h1
  · rw [hctl, hholds i hj]
    rfl
  · rw [hkeep.refs, hholds i hj, hone]
  · rw [hkeep.refs]
    exact hok.req i hreq

theorem send_at (hok : TableOk s) (hctl : s.ctl = .send accept k)
    (h : openTurn s = some s') : StepAt i s s' := by
  simp only [openTurn, hctl] at h
  obtain ⟨⟨_, t⟩, hsend, rfl⟩ := map_eq_some_iff.mp h
  rcases when_eq_some.mp hsend with ⟨_, hsend⟩ | ⟨_, rfl⟩
  · cases hsend
    have hmore : s.serv.refs i ≤ (s.serv.setRefs k (s.serv.refs k + 1)).refs i := by
      by_cases hik : i = k
      · rw [hik, Serv.setRefs_self]
        exact Nat.le_succ _
      · rw [Serv.setRefs_ne hik]
    refine .leave rfl rfl (fun _ => rfl) (fun h1 h2 => ⟨?_, fun h => h.elim⟩)
      (fun h => h.elim) fun hreq =>
      (hok.req i hreq).trans_le hmore
    have hik : i ≠ k := fun hno => h2 (by rw [hctl, hno]; rfl)
    rw [Serv.setRefs_ne hik]
    exact h1
  · exact .of_same hok (Std.Refl.refl _) rfl (fun _ h => h.elim) rfl

theorem openTurn_at (hok : TableOk s) (h : openTurn s = some s') : StepAt i s s' := by
  cases hctl : s.ctl with
  | idle =>
    rw [openTurn, hctl] at h
    cases h
  | scan mem accept path j => exact scan_at hok hctl h
  | fill accept path k => exact fill_at hok hctl h
  | send accept k => exact send_at hok hctl h

theorem reqPage_at (h : SysStep s (.reqPage k) s') : StepAt i s s' := by
  obtain ⟨hidle, hnone, hmaps, rfl⟩ := h
  have hused : 1 < s.serv.refs k := by
    rw [Sys.mappers, Sys.own, hnone, if_neg nofun] at hmaps
    omega
  refine .leave rfl rfl (fun _ => rfl) (fun h1 h2 => ⟨?_, h2⟩) (fun h => ?_) fun hreq => ?_
  · have hik : i ≠ k := fun hno => by
      subst hno
      omega
    exact (Serv.setRefs_ne hik).le.trans h1
  · rw [show s.ctl = .idle from hidle] at h
    exact h.elim
  · obtain rfl := Option.some.inj hreq
    show 1 < (s.serv.setRefs k _).refs k
    rw [Serv.setRefs_self]
    omega

/-- **What a step does to an entry of the table.** -/
theorem sysStep_at (hok : TableOk s) (h : SysStep s e s') : StepAt i s s' := by
  cases e with
  | clients =>
    obtain ⟨t, hmeddle, rfl⟩ := h
    exact meddles_at hok hmeddle
  | reqPage k => exact reqPage_at h
  | request q =>
    cases q with
    | fsreqOpen mem accept =>
      obtain ⟨_, rfl⟩ := h
      exact .of_same hok (Std.Refl.refl _) rfl (fun _ h => h.elim) rfl
    | fsreqSetSize | fsreqRead | fsreqWrite | fsreqStat | fsreqFlush =>
      obtain ⟨hidle, r, t, hserve, rfl⟩ := h
      exact StepAt.done
        (.of_same hok (serve_keepsIds (by nofun) s.serv r t hserve) rfl (fun _ h => h) rfl) hidle
  | step =>
    obtain ⟨t, hturn, rfl⟩ := map_eq_some_iff.mp h
    split
    · next hidle => exact (openTurn_at hok hturn).done hidle
    · exact openTurn_at hok hturn

theorem slotOf_add (x : Word) : slotOf (x + 1024#32) = slotOf x := by
  apply Fin.ext
  simp only [slotOf, BitVec.toNat_add, BitVec.toNat_ofNat, maxopen]
  omega

/-- **Every step keeps the table in order.** -/
theorem TableOk.step (hok : TableOk s) (h : SysStep s e s') : TableOk s' := by
  refine ⟨fun i => ?_, fun i hi => ?_, fun i hi => ?_⟩
  · cases sysStep_at (i := i) hok h with
    | leave hid => rw [hid, hok.slot i]
    | take _ _ hid => rw [hid, slotOf_add, hok.slot i]
  · cases sysStep_at (i := i) hok h with
    | leave _ _ _ _ hheld => exact hheld hi
    | take _ hone => exact hone
  · cases sysStep_at (i := i) hok h with
    | leave _ _ _ _ _ hreq => exact hreq hi
    | take _ _ _ _ hne => exact absurd hi hne

theorem TableOk.run {es : List Event} (hrun : Run CleanStep s es s') (hok : TableOk s) :
    TableOk s' :=
  hrun.invariant TableOk hok fun _ _ _ hok h => hok.step h.1

theorem tableOk_init (htab : s.serv.opentab = serveInit) (hidle : s.ctl = .idle)
    (hreq : s.req = none) : TableOk s := by
  refine ⟨fun i => ?_, fun i hi => ?_, fun i hi => by rw [hreq] at hi; cases hi⟩
  · apply Fin.ext
    simp only [htab, serveInit, slotOf, BitVec.toNat_ofNat, maxopen] at *
    omega
  · rw [hidle] at hi
    exact hi.elim

end Entry

section Runs

variable {s s' t : Sys} {es : List Event} {i : Fin maxopen} {id : Word}

theorem lookup_ok {u : Serv} (hid : (u.opentab i).fileid = id) (hslot : slotOf id = i)
    (hrefs : 1 < u.refs i) : openfileLookup id u = some (.ok i, u) := by
  rw [openfileLookup_eq, hslot, if_neg]
  rintro (hle | hne)
  · omega
  · exact hne hid

theorem lookup_error {u : Serv} (hslot : slotOf id = i)
    (h : u.refs i ≤ 1 ∨ (u.opentab i).fileid ≠ id) :
    openfileLookup id u = some (.error (-eInval), u) := by
  rw [openfileLookup_eq, hslot, if_pos h]

theorem Sys.mappers_pos (h : 0 < s.mappers i) : 1 < s.serv.refs i := by
  rw [Sys.mappers, Sys.own] at h
  split at h <;> omega

/-- The client that gets the page maps it. -/
theorem TableOk.sent (hok : TableOk s) (hctl : s.ctl = .send true i) (hstep : SysStep s .step s') :
    1 < s'.serv.refs i := by
  have hone : s.serv.refs i = 1 := hok.held i (by rw [hctl]; rfl)
  have hne : s.req ≠ some i := fun hno => by
    have := hok.req i hno
    omega
  obtain ⟨v, hturn, rfl⟩ := map_eq_some_iff.mp hstep
  simp only [openTurn, hctl] at hturn
  obtain ⟨⟨_, v⟩, hsend, rfl⟩ := map_eq_some_iff.mp hturn
  rw [sendPage, when_pos rfl] at hsend
  cases hsend
  simp only [Sys.done, if_neg hne, Serv.setRefs_self]
  omega

theorem run_used (hrun : Run (fun a e b => CleanStep a e b ∧ 0 < b.mappers i) s es s')
    (hok : TableOk s)
    (hused : 1 < s.serv.refs i) :
    TableOk s' ∧ 1 < s'.serv.refs i ∧ s'.serv.opentab i = s.serv.opentab i := by
  refine hrun.invariant (fun u => TableOk u ∧ 1 < u.serv.refs i ∧
    u.serv.opentab i = s.serv.opentab i)
    ⟨hok, hused, rfl⟩ ?_
  rintro a e b ⟨hok, hused, htab⟩ ⟨⟨hstep, _⟩, hused'⟩
  refine ⟨hok.step hstep, Sys.mappers_pos hused', ?_⟩
  cases sysStep_at (i := i) hok hstep with
  | leave _ _ hkeep => rw [hkeep hused, htab]
  | take hle => omega

/-- An entry that no client uses, after `k` times that it was taken. -/
structure Unused (i : Fin maxopen) (id : Word) (n k : ℕ) (s : Sys) : Prop where
  ok : TableOk s
  fileid : (s.serv.opentab i).fileid = id + BitVec.ofNat 32 (1024 * k)
  allocs : s.allocs i = n + k
  free : k = 0 → s.serv.refs i ≤ 1 ∧ ¬ s.ctl.Holds i

theorem Unused.step {n k : ℕ} {e : Event} (h : Unused i id n k s) (hstep : SysStep s e s') :
    ∃ k', Unused i id n k' s' := by
  cases sysStep_at (i := i) h.ok hstep with
  | leave hid hallocs _ hfree =>
    refine ⟨k, h.ok.step hstep, by rw [hid, h.fileid], by rw [hallocs, h.allocs], fun hk => ?_⟩
    obtain ⟨h1, h2⟩ := h.free hk
    exact hfree h1 h2
  | take _ _ hid hallocs =>
    refine ⟨k + 1, h.ok.step hstep, ?_, by rw [hallocs, h.allocs, Nat.add_assoc], nofun⟩
    rw [hid, h.fileid, BitVec.add_assoc, Nat.mul_add, BitVec.ofNat_add]

/-- The ids of an entry are different until it has been taken 2^22 times. -/
theorem Unused.rejects {n k : ℕ} (h : Unused i id n k s) (hslot : slotOf id = i) (hk : k < 2 ^ 22) :
    openfileLookup id s.serv = some (.error (-eInval), s.serv) := by
  refine lookup_error hslot ?_
  rcases Nat.eq_zero_or_pos k with hzero | hpos
  · exact .inl (h.free hzero).1
  · refine .inr fun hno => ?_
    have hnat := congrArg BitVec.toNat (h.fileid.symm.trans hno)
    rw [BitVec.toNat_add, BitVec.toNat_ofNat] at hnat
    omega

end Runs

/-- **The open-file table.** In every state that is reached from `serve_init` while no client gives
    up the last mapping of a request page: the page that an open is about to send has the id of its
    entry; when the client has got it, the id resolves to the entry and the file, and no other open
    gets the entry, as long as some client maps the page; and when the last client has unmapped it,
    the id is rejected until the entry has been taken 2^22 times. -/
theorem open_file_table {s s' : Sys} {es : List Event} (htab : s.serv.opentab = serveInit)
    (hidle : s.ctl = .idle)
    (hreq : s.req = none) (hrun : Run CleanStep s es s') (i : Fin maxopen) :
    (∀ accept path t, s'.ctl = .fill accept path i → CleanStep s' .step t → t.ctl = .send accept i →
      t.serv.fs.view.word (fdFileId i) = (t.serv.opentab i).fileid) ∧
    (∀ t, s'.ctl = .send true i → CleanStep s' .step t →
      ∀ es' u, Run (fun a e b => CleanStep a e b ∧ 0 < b.mappers i) t es' u →
        openfileLookup (t.serv.opentab i).fileid u.serv = some (.ok i, u.serv) ∧
        u.serv.opentab i = t.serv.opentab i ∧ ∀ accept, u.ctl ≠ .send accept i) ∧
    (∀ t, 0 < s'.mappers i → CleanStep s' .clients t → t.mappers i = 0 →
      ∀ es' u, Run CleanStep t es' u → u.allocs i < t.allocs i + 2 ^ 22 →
        openfileLookup (s'.serv.opentab i).fileid u.serv = some (.error (-eInval), u.serv)) := by
  have hok : TableOk s' := TableOk.run hrun (tableOk_init htab hidle hreq)
  refine ⟨fun accept path t hctl hstep hsend => ?_, fun t hctl hstep es' u hrun' => ?_,
    fun t hused hstep hnone es' u hrun' hcount => ?_⟩
  · obtain ⟨v, hturn, rfl⟩ := map_eq_some_iff.mp hstep.1
    simp only [openTurn, hctl] at hturn
    obtain ⟨⟨⟨r, o⟩, v⟩, hopen, rfl⟩ := map_eq_some_iff.mp hturn
    cases o with
    | none => cases hsend
    | some k => exact (serveOpenAt_page hopen).2
  · have hok' := hok.step hstep.1
    obtain ⟨hok'', hused, htab'⟩ := run_used hrun' hok' (hok.sent hctl hstep.1)
    refine ⟨lookup_ok (by rw [htab']) (hok'.slot i) hused, htab', fun accept hno => ?_⟩
    have := hok''.held i (by rw [hno]; rfl)
    omega
  · have hok' := hok.step hstep.1
    obtain ⟨⟨v, hmeddle, rfl⟩, hclean⟩ := hstep
    have hrefs := Sys.mappers_pos hused
    have hheld : ¬ s'.ctl.Holds i := fun hno => by
      have := hok.held i hno
      omega
    -- the page is not the request page, so the server maps it once
    have hle : v.refs i ≤ 1 := by
      have hne : s'.req ≠ some i := fun hno => by
        have := hclean rfl i hno hused
        omega
      rw [Sys.mappers, Sys.own, if_neg hne] at hnone
      exact Nat.le_of_sub_eq_zero hnone
    have hstart : Unused i (s'.serv.opentab i).fileid (s'.allocs i) 0 { s' with serv := v } :=
      ⟨hok', by rw [hmeddle.opentab, Nat.mul_zero, BitVec.add_zero], rfl, fun _ => ⟨hle, hheld⟩⟩
    obtain ⟨k, hend⟩ :=
      hrun'.invariant (fun u => ∃ k, Unused i (s'.serv.opentab i).fileid (s'.allocs i) k u)
      ⟨0, hstart⟩ fun _ _ _ ⟨k, hk⟩ hstep => hk.step hstep.1
    have hcount' := hend.allocs
    simp only at hcount
    exact hend.rejects (hok.slot i) (by omega)

/-- The server after `serve_init`, with a request for the file of the disk. -/
def openSys : Sys where
  serv := ⟨serverOn (fileDisk.putWord fsreq 0x61#32), serveInit, fun _ => 0, []⟩
  ctl := .idle
  allocs _ := 0
  req := none

/-- The client gets the first entry, with id 1024. -/
theorem openSys_opens : ∃ b c, Run CleanStep openSys [.request (.fsreqOpen true true),
    .step, .step] b ∧
    b.ctl = .send true ⟨0, by decide⟩ ∧ CleanStep b .step c ∧ c.ctl = .idle ∧ c.req = none ∧
    c.serv.refs ⟨0, by decide⟩ = 2 ∧ (c.serv.opentab ⟨0, by decide⟩).fileid = 1024#32 := by
  let s₁ : Sys := { openSys with ctl := .scan true true (reqPath openSys.serv.fs.mem) 0 }
  obtain ⟨a, ha, b, hb, c, hc, hsend, hopened⟩ :
      ∃ a ∈ openNext s₁, ∃ b ∈ openNext a, ∃ c ∈ openNext b, b.ctl = .send true ⟨0, by decide⟩ ∧
      c.ctl = .idle ∧ c.req = none ∧ c.serv.refs ⟨0, by decide⟩ = 2 ∧
        (c.serv.opentab ⟨0, by decide⟩).fileid = 1024#32 := by decide +kernel
  have hstart : CleanStep openSys (.request (.fsreqOpen true true)) s₁ := ⟨⟨rfl, rfl⟩, nofun⟩
  have hstep₁ : CleanStep s₁ .step a := ⟨ha, nofun⟩
  have hstep₂ : CleanStep a .step b := ⟨hb, nofun⟩
  exact ⟨b, c, ((Run.single hstart).snoc hstep₁).snoc hstep₂, hsend, ⟨hc, nofun⟩, hopened⟩

/-- The id is good until the client unmaps the page. -/
theorem open_file_table_first : ∃ c t, Run CleanStep openSys
      [.request (.fsreqOpen true true), .step, .step, .step] c ∧ CleanStep c .clients t ∧
    openfileLookup 1024#32 c.serv = some (.ok ⟨0, by decide⟩, c.serv) ∧
    openfileLookup 1024#32 t.serv = some (.error (-eInval), t.serv) := by
  obtain ⟨b, c, hrun, hsend, hstep, -, hreq, hrefs, hid⟩ := openSys_opens
  have hlook :=
    ((open_file_table rfl rfl rfl hrun ⟨0, by decide⟩).2.1 c hsend hstep [] c (.nil c)).1
  have hown : ∀ i, c.own i = 1 := fun i => by rw [Sys.own, hreq, if_neg nofun]
  have hused : c.own ⟨0, by decide⟩ < c.serv.refs ⟨0, by decide⟩ := by rw [hown, hrefs]; decide
  have hunmap : CleanStep c .clients { c with serv := _ } :=
    ⟨⟨_, .unmap hused c.serv.fs.mem c.serv.fs.mem, rfl⟩, fun _ i hi => by rw [hreq] at hi; cases hi⟩
  have hrejects :=
    (open_file_table rfl rfl rfl (hrun.snoc hstep) ⟨0, by decide⟩).2.2 _ (Nat.sub_pos_of_lt hused)
    hunmap ((congrArg (· - _) Serv.setRefs_self).trans (Nat.sub_self _)) [] _ (.nil _)
    (Nat.lt_add_of_pos_right (by decide))
  rw [hid] at hlook hrejects
  exact ⟨c, _, hrun.snoc hstep, hunmap, hlook, hrejects⟩

/-- **The page of an open file as the request page.** A client that has opened a file sends its page
    as a request with the id of the file, and unmaps it. No client maps the page any more, and the
    id resolves. -/
theorem closed_file_resolves : ∃ s t, Run SysStep openSys
      [.request (.fsreqOpen true true), .step, .step, .step, .reqPage ⟨0, by decide⟩] s ∧
    0 < s.mappers ⟨0, by decide⟩ ∧ SysStep s .clients t ∧ t.mappers ⟨0, by decide⟩ = 0 ∧
    t.serv.reqFileid = 1024#32 ∧
    openfileLookup 1024#32 t.serv = some (.ok ⟨0, by decide⟩, t.serv) := by
  obtain ⟨b, c, hrun, -, hstep, hidle, hreq, hrefs, hid⟩ := openSys_opens
  have hmaps :
    0 < c.mappers ⟨0, by decide⟩ := by rw [Sys.mappers, Sys.own, hreq, if_neg nofun, hrefs]; decide
  have hsent : SysStep c (.reqPage ⟨0, by decide⟩) { c with serv := _, req := _ } :=
    ⟨hidle, hreq, hmaps, rfl⟩
  generalize hs : ({ c with serv := _, req := _ } : Sys) = s at hsent
  have hrefs' : s.serv.refs ⟨0, by decide⟩ = 3 := by
    rw [← hs]
    dsimp only
    rw [Serv.setRefs_self, hrefs]
  have hid' : (s.serv.opentab ⟨0, by decide⟩).fileid = 1024#32 := by rw [← hs]; exact hid
  have hown : s.own ⟨0, by decide⟩ = 2 := by rw [← hs]; exact if_pos rfl
  have hused : s.own ⟨0, by decide⟩ < s.serv.refs ⟨0, by decide⟩ := by rw [hown, hrefs']; decide
  -- the client writes the id to the first word of the page, which is at two addresses
  let g := wordByte 1024#32 fsreq
  let g' := s.serv.fs.mem.overwrite fileva pgsize fun x => g (fsreq + (x - fileva))
  refine ⟨s, _, (hrun.mono fun _ _ _ h => h.1).snoc hstep.1 |>.snoc hsent, Nat.sub_pos_of_lt hused,
    ⟨_, .unmap hused g g', rfl⟩,
    (congrArg (· - _) Serv.setRefs_self).trans (Nat.sub_self _), ?_, ?_⟩
  · refine (word_overwrite (.inl (by decide))).trans
      (Eq.trans ?_ (word_putWord_self (m := s.serv.fs.mem) (a := fsreq)))
    refine word_congr fun x h1 h2 => ?_
    have hx : x < fsreq + pgsize := h2.trans (by decide)
    exact (overwrite_in h1 hx).trans (overwrite_in h1 h2).symm
  · exact lookup_ok hid' (by decide)
      (Nat.lt_of_lt_of_eq (by decide) (Serv.setRefs_self.trans hown).symm)

end LinuxStudy.Fs
