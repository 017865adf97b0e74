import LinuxStudy.Fs.Serv

/-!
# Requests of clients

Between two requests the clients change the pages they share with the server, which are the
request page and the pages of open files, and map and unmap the pages of open files. The server
handles one request after the other. After `serve_open` the page of the open file is sent to the
client, who may not accept it.
-/

namespace LinuxStudy.Fs

open Jos
open ByteMem Proc

/-- Bytes stored by clients into a page they share with the server. -/
def Server.poke (s : Server) (a n : ℕ) (g : ℕ → Byte) :
    Server := { s with mem := s.mem.overwrite a n g }

/-- What clients do between two requests; `own` counts the server's own mappings of each page. A
    page that only the server maps is not theirs. -/
structure Meddles (own : Fin maxopen → ℕ) (s s' : Serv) : Prop where
  opentab : s'.opentab = s.opentab
  calls : s'.calls = s.calls
  fs : ∃ g g', s'.fs = (s.fs.poke fsreq pgsize g).poke fileva (maxopen * pgsize) g'
  mine : ∀ i, s.refs i ≤ own i → s'.refs i = s.refs i
  shared : ∀ i, own i < s.refs i → own i ≤ s'.refs i

/-- The requests. For an open, `mem` tells whether there is memory for a page, and `accept` whether
    the client takes the page that is sent. -/
inductive Request
  | fsreqOpen (mem accept : Bool)
  | fsreqSetSize
  | fsreqRead
  | fsreqWrite
  | fsreqStat
  | fsreqFlush

/-- The page of the open file is sent to the client. -/
def sendPage (accept : Bool) (i : Fin maxopen) : ServM Unit :=
  Proc.when (accept = true) (modify fun s => s.setRefs i (s.refs i + 1))

/-- One turn of the loop of `serve`. -/
def serve : Request → ServM Int
  | .fsreqOpen mem accept => do
    match ← serveOpen mem with
    | (r, none) => pure r
    | (r, some i) =>
      sendPage accept i
      pure r
  | .fsreqSetSize => serveSetSize
  | .fsreqRead => serveRead
  | .fsreqWrite => serveWrite
  | .fsreqStat => serveStat
  | .fsreqFlush => serveFlush

/-- A request that the server answers. -/
def ServStep (s : Serv) (q : Request) (s' : Serv) : Prop := 
  ∃ t r, Meddles (fun _ => 1) s t ∧ serve q t = some (r, s')

namespace Serv

variable {s : Serv} {i j : Fin maxopen}

@[simp] theorem setFile_self {o : OpenFile} : (s.setFile i o).opentab i = o :=
    Function.update_self ..

theorem setFile_ne {o : OpenFile} (h : j ≠ i) : (s.setFile i o).opentab j = s.opentab j :=
  Function.update_of_ne h ..

@[simp] theorem setRefs_self {n : ℕ} : (s.setRefs i n).refs i = n := Function.update_self ..

theorem setRefs_ne {n : ℕ} (h : j ≠ i) : (s.setRefs i n).refs j = s.refs j :=
    Function.update_of_ne h ..

end Serv

section Poke

variable {s : Server} {a n : ℕ} {g : ℕ → Byte}

theorem Server.view_poke (h : OffMap a n) : (s.poke a n g).view = s.view.overwrite a n g := by
  funext x
  by_cases hx : a ≤ x ∧ x < a + n
  · have hmap : ¬ InMap x := not_inMap_of_offMap h hx.1 hx.2
    rw [overwrite_in hx.1 hx.2, Server.view, if_neg (not_and_of_not_left _ hmap)]
    exact overwrite_in hx.1 hx.2
  · have hout : x < a ∨ a + n ≤ x := by omega
    have hmem : (s.poke a n g).mem x = s.mem x := overwrite_out hout
    rw [overwrite_out hout, Server.view, Server.view, hmem]
    rfl

theorem Server.poke_self : s.poke a n s.mem = s := by
  have hmem : s.mem.overwrite a n s.mem = s.mem := by
    funext x
    rw [ByteMem.overwrite]
    split <;> rfl
  rw [poke, hmem]

theorem fds_offMap : OffMap fileva (maxopen * pgsize) := .inr (by decide)

theorem Meddles.refl (own : Fin maxopen → ℕ) (s : Serv) : Meddles own s s where
  opentab := rfl
  calls := rfl
  fs := ⟨s.fs.mem, s.fs.mem, by rw [Server.poke_self, Server.poke_self]⟩
  mine := fun _ _ => rfl
  shared := fun _ h => h.le

/-- The clients give up all their mappings of a page, after they have written to it. -/
theorem Meddles.unmap {own : Fin maxopen → ℕ} {s : Serv} {i : Fin maxopen} (h : own i < s.refs i)
    (g g' : ℕ → Byte) :
    Meddles own s
    ({ s with fs := (s.fs.poke fsreq pgsize g).poke fileva (maxopen * pgsize) g' }.setRefs i
      (own i)) where
  opentab := rfl
  calls := rfl
  fs := ⟨g, g', rfl⟩
  mine := fun j hj => Serv.setRefs_ne fun hno => by
    rw [hno] at hj
    omega
  shared := fun j hj => by
    by_cases hji : j = i
    · rw [hji, Serv.setRefs_self]
    · rw [Serv.setRefs_ne hji]
      exact hj.le

end Poke

/-! ### The open-file table -/

/-- An entry has got its next id, and the server is the only one to map its page, which is clear. -/
structure Taken (s : Serv) (i : Fin maxopen) (s' : Serv) : Prop where
  opentab : s'.opentab =
    Function.update s.opentab i { s.opentab i with fileid := (s.opentab i).fileid + 1024#32 }
  refs : s'.refs = Function.update s.refs i 1
  calls : s'.calls = s.calls
  shows : Shows (s.fs.view.overwrite (oFd i) pgsize fun _ => 0#8) s.fs s'.fs

section Alloc

variable {s s' : Serv} {i : Fin maxopen} {mem : Bool} {r : Int}

theorem openfileTake_cases (h : openfileTake i s = some (r, s')) (hrefs : s.refs i = 1) :
    Taken s i s' ∧ r = ((s.opentab i).fileid + 1024#32).toInt := by
  simp only [openfileTake, bind_eq_some, modify_eq_some, get_eq_some, pure_eq_some] at h
  obtain ⟨_, s1, rfl, _, s2, hset, _, _, ⟨rfl, rfl⟩, rfl, rfl⟩ := h
  obtain ⟨t, hmem, rfl⟩ := access_eq_some.mp hset
  refine ⟨⟨rfl, ?_, rfl, store_shows hmem⟩, ?_⟩
  · rw [← hrefs, Function.update_eq_self]
    rfl
  · rw [Serv.setFile_self]

theorem openfileAllocStep_cases {j : ℕ} {o : Option (Int × Fin maxopen)}
    (h : openfileAllocStep mem j s = some (o, s')) (hj : j < maxopen) :
    (o = none ∧ s' = s ∧ 1 < s.refs ⟨j, hj⟩) ∨
      (o = some (-eNoMem, ⟨j, hj⟩) ∧ s' = s ∧ s.refs ⟨j, hj⟩ = 0 ∧ mem = false) ∨
      s.refs ⟨j, hj⟩ ≤ 1 ∧ ¬ (s.refs ⟨j, hj⟩ = 0 ∧ mem = false) ∧ Taken s ⟨j, hj⟩ s' ∧
        o = some (((s.opentab ⟨j, hj⟩).fileid + 1024#32).toInt, ⟨j, hj⟩) := by
  rw [openfileAllocStep, dif_pos hj, bind_of_eq get_apply] at h
  split at h
  · next hzero =>
    split at h
    · next hmem =>
      cases h
      exact .inr (.inl ⟨rfl, rfl, hzero, hmem⟩)
    · next hmem =>
      simp only [bind_eq_some, modify_eq_some, pure_eq_some] at h
      obtain ⟨_, _, rfl, r, s2, htake, rfl, rfl⟩ := h
      obtain ⟨ht, hr⟩ := openfileTake_cases htake (Function.update_self ..)
      refine .inr
        (.inr ⟨by omega, fun hno => hmem hno.2, ⟨ht.opentab, ?_, ht.calls, ht.shows⟩,
          by rw [hr]; rfl⟩)
      rw [ht.refs]
      exact Function.update_idem ..
  · split at h
    · next hone =>
      simp only [bind_eq_some, pure_eq_some] at h
      obtain ⟨r, s2, htake, rfl, rfl⟩ := h
      obtain ⟨ht, hr⟩ := openfileTake_cases htake hone
      exact .inr (.inr ⟨hone.le, fun hno => by omega, ht, by rw [hr]⟩)
    · cases h
      exact .inl ⟨rfl, rfl, by omega⟩

/-- **`openfile_alloc`** takes an entry that no client maps, or does nothing. -/
theorem openfileAlloc_cases {o : Option (Fin maxopen)}
    (h : openfileAlloc mem s = some ((r, o), s')) :
    (o = none ∧ s' = s) ∨ ∃ i, s.refs i ≤ 1 ∧ Taken s i s' ∧
      r = ((s.opentab i).fileid + 1024#32).toInt ∧ o = if r < 0 then none else some i := by
  rw [openfileAlloc, bind_eq_some] at h
  obtain ⟨found, s1, hloop, h⟩ := h
  have hrun := search_rule (fun _ t => t = s)
    (fun (b : Int × Fin maxopen) t => (b.1 = -eNoMem ∧ t = s) ∨
      s.refs b.2 ≤ 1 ∧ Taken s b.2 t ∧ b.1 = ((s.opentab b.2).fileid + 1024#32).toInt)
    (by
      rintro j t t' hj rfl hbody
      rcases openfileAllocStep_cases hbody (by omega) with ⟨_, rfl, _⟩ | ⟨hno, _⟩ | ⟨_, _, _, hno⟩
      · rfl
      · cases hno
      · cases hno)
    (by
      rintro j t ⟨q, i⟩ t' hj rfl hbody
      rcases openfileAllocStep_cases hbody (by omega) with
        ⟨hno, _⟩ | ⟨hb, rfl, _⟩ | ⟨hrefs, _, htaken, hb⟩
      · cases hno
      · exact .inl ⟨(Prod.mk.inj (Option.some.inj hb)).1, rfl⟩
      · obtain ⟨hq, rfl⟩ := Prod.mk.inj (Option.some.inj hb)
        exact .inr ⟨hrefs, htaken, hq⟩)
    hloop rfl
  rcases hrun with ⟨rfl, rfl⟩ | ⟨⟨q, i⟩, rfl, hres⟩
  · obtain ⟨hr, rfl⟩ := pure_eq_some.mp h
    cases hr
    exact .inl ⟨rfl, rfl⟩
  · obtain ⟨hr, rfl⟩ := pure_eq_some.mp h
    obtain ⟨rfl, rfl⟩ := Prod.mk.inj hr
    rcases hres with ⟨hq, rfl⟩ | ⟨hrefs, htaken, hq⟩
    · refine .inl ⟨if_pos ?_, rfl⟩
      rw [show q = -eNoMem from hq]
      decide
    · exact .inr ⟨i, hrefs, htaken, hq, rfl⟩

end Alloc

end LinuxStudy.Fs
