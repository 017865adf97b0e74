import LinuxStudy.Fs.Walk

/-!
# The tree of files, and what the calls do to it

The files of the file system are the root and the named entries of its directories. A call that
only adds blocks leaves all blocks as they are, apart from the structures of the files; a call
on a file that is not a directory leaves the other files alone.
-/

namespace LinuxStudy.Fs

open Jos
open Function (update update_self update_of_ne)
open ByteMem Proc

/-! ### The tree -/

/-- `e` is a named entry of the directory `d`. -/
def Edge (v : ByteMem) (d e : ℕ) : Prop :=
  v.word (fType d) = ftypeDir ∧ ∃ n j, n < dirLen v d ∧ n < ndirect + nindirect ∧ j < blkfiles ∧
    target v d (.data n) ≠ 0#32 ∧ e = blkaddr (target v d (.data n)) + 256 * j ∧ v e ≠ 0#8

/-- The root, and the named entries of the directories. -/
def tree (v : ByteMem) : Set ℕ := {f | Relation.ReflTransGen (Edge v) sRoot f}

def dirs (v : ByteMem) : Set ℕ := {d | d ∈ tree v ∧ v.word (fType d) = ftypeDir}

/-- **Ownership.** Every block pointer of every file is the number of a block after the bitmap,
    which is in use, and of no other pointer. -/
structure Owned (v : ByteMem) : Prop where
  range : ∀ f ∈ tree v, ∀ p : Ptr, p.Valid → target v f p ≠ 0#32 →
    lastBitmap v < (target v f p).toNat ∧ target v f p < v.word sNblocks ∧ ¬ IsFree v (target v f p)
  inj : ∀ f ∈ tree v, ∀ p : Ptr, p.Valid → ∀ g ∈ tree v, ∀ q : Ptr, q.Valid → target v f p ≠ 0#32 →
    target v f p = target v g q → f = g ∧ p = q

section Tree

variable {S D X : Set ℕ} {v v' v₀ : ByteMem} {d e f : ℕ}

theorem root_mem_tree (v : ByteMem) : sRoot ∈ tree v := .refl

/-- A set with the root that is closed under entries holds the tree. -/
theorem tree_sub (hroot : sRoot ∈ S) (hedge : ∀ d ∈ S, ∀ e, Edge v d e → e ∈ S) : tree v ⊆ S := by
  intro f hf
  induction hf with
  | refl => exact hroot
  | tail _ hlast ih => exact hedge _ ih _ hlast

theorem Owned.ownOn (h : Owned v) (hm : Mounted v) : OwnOn (tree v) (dirs v) v := by
  refine ⟨hm.sized, hm.reserved, fun d hd => hd.1, fun f hf => ?_, h.range, h.inj⟩
  rcases Relation.ReflTransGen.cases_tail hf with rfl | ⟨d, hd, htype, n, j, _, hn, hj, hne, rfl, _⟩
  · exact .inl rfl
  · exact .inr ⟨d, ⟨hd, htype⟩, n, j, hn, hj, hne, rfl⟩

theorem OwnOn.mounted (h : OwnOn S D v) : Mounted v := ⟨h.sized, h.reserved⟩

theorem OwnOn.owned (h : OwnOn S D v)
    (htree : ∀ f ∈ tree v, f ∈ S ∨ ∀ p : Ptr, p.Valid → target v f p = 0#32) : Owned v := by
  have hmem : ∀ f ∈ tree v, ∀ p : Ptr, p.Valid → target v f p ≠ 0#32 → f ∈ S := fun f hf p hp hne =>
    (htree f hf).resolve_right fun hzero => hne (hzero p hp)
  refine ⟨fun f hf p hp hne => h.range f (hmem f hf p hp hne) p hp hne,
    fun f hf p hp g hg q hq hne heq => ?_⟩
  have hne' : target v g q ≠ 0#32 := by
    rw [← heq]
    exact hne
  exact h.inj f (hmem f hf p hp hne) p hp g (hmem g hg q hq hne') q hq hne heq

/-- Every block that comes into a directory held zeros before. -/
def Fresh (v v' : ByteMem) : Prop :=
  ∀ d ∈ dirs v, ∀ n, n < dirLen v' d → n < ndirect + nindirect → target v' d (.data n) ≠ 0#32 →
    (target v d (.data n) = target v' d (.data n) ∧ n < dirLen v d) ∨
      ∀ x, InBlock (target v' d (.data n)) x → v x = 0#8

/-- The types of the files, and what is in the names of the entries, except at `X`. -/
structure SameNames (v₀ : ByteMem) (X : Set ℕ) (v : ByteMem) : Prop where
  type : ∀ f ∈ tree v₀, v.word (fType f) = v₀.word (fType f)
  name : ∀ d ∈ dirs v₀, ∀ n j, n < ndirect + nindirect → j < blkfiles →
    target v d (.data n) ≠ 0#32 →
    v (blkaddr (target v d (.data n)) + 256 * j) = v₀ (blkaddr (target v d (.data n)) + 256 * j) ∨
      blkaddr (target v d (.data n)) + 256 * j ∈ X

theorem Fresh.edge_mem (hfresh : Fresh v₀ v) (hname : SameNames v₀ X v) (hd : d ∈ tree v₀)
    (he : Edge v d e) : e ∈ tree v₀ ∨ e ∈ X := by
  obtain ⟨htype, n, j, hlen, hn, hj, hne, rfl, hbyte⟩ := he
  rw [hname.type d hd] at htype
  have hdir : d ∈ dirs v₀ := ⟨hd, htype⟩
  rcases hname.name d hdir n j hn hj hne with hsame | hX
  · rw [hsame] at hbyte
    rcases hfresh d hdir n hlen hn hne with ⟨htgt, hlen0⟩ | hzero
    · left
      refine hd.tail ⟨htype, n, j, hlen0, hn, hj, ?_, ?_, hbyte⟩
      · rw [htgt]
        exact hne
      · rw [htgt]
    · refine absurd (hzero _ ⟨by omega, ?_⟩) hbyte
      simp only [blkfiles, blksize] at *
      omega
  · exact .inr hX

end Tree

section Frames

variable {S D : Set ℕ} {v v' : ByteMem} {e : Edit} {f g : ℕ} {p : Ptr}

theorem field_ne_ptrCell {o : ℕ} (ho : o < 136) : ¬ (Cell.field g o).Same (ptrCell f p) := by
  intro h
  cases p with
  | indirect =>
    have h : Cell.field g o = .field f 176 := h
    rw [Cell.field.injEq] at h
    omega
  | data n =>
    rw [ptrCell] at h
    split at h
    · have h : Cell.field g o = .field f (136 + 4 * n) := h
      rw [Cell.field.injEq] at h
      omega
    · cases h

theorem Edits.nblocks (he : Edits v e v') (h : OwnOn S D v) (hon : e.On S D) :
    v'.word sNblocks = v.word sNblocks := by
  refine he.cells (c := .nblocks) h hon trivial fun hs => ?_
  have hptr : ∀ f p, ¬ Cell.nblocks.Same (ptrCell f p) := by
    intro f p hs
    cases p with
    | indirect => cases hs
    | data n =>
      rw [ptrCell] at hs
      split at hs <;> cases hs
  cases e with
  | ram | write | name => exact hs
  | size => cases hs
  | indirect | data | dropData | dropIndirect =>
    rcases hs with hs | hs
    · cases hs
    · first | exact hptr _ _ hs | cases hs

theorem Edits.field {o : ℕ} (he : Edits v e v') (h : OwnOn S D v) (hon : e.On S D) (hg : g ∈ S)
    (ho : o = 132 ∨ o = 128 ∧ ∀ x, e ≠ .size g x) : v'.word (g + o) = v.word (g + o) := by
  have hlt : o < 136 := by omega
  refine he.cells (c := .field g o) h hon (fieldOk hg (by omega) (by omega) (by omega)) fun hs => ?_
  cases e with
  | ram | write | name => exact hs
  | indirect f b =>
    rcases hs with hs | hs
    · cases hs
    · exact field_ne_ptrCell (p := .indirect) hlt hs
  | data f n b =>
    rcases hs with hs | hs
    · cases hs
    · exact field_ne_ptrCell hlt hs
  | dropData f n =>
    rcases hs with hs | hs
    · cases hs
    · exact field_ne_ptrCell hlt hs
  | dropIndirect f =>
    rcases hs with hs | hs
    · cases hs
    · exact field_ne_ptrCell (p := .indirect) hlt hs
  | size f x =>
    cases hs
    rcases ho with ho | ⟨_, hno⟩
    · omega
    · exact hno x rfl

theorem Edits.type (he : Edits v e v') (h : OwnOn S D v) (hon : e.On S D) (hg : g ∈ S) :
    v'.word (fType g) = v.word (fType g) := he.field h hon hg (.inl rfl)

theorem Edits.size_same (he : Edits v e v') (h : OwnOn S D v) (hon : e.On S D) (hg : g ∈ S)
    (hne : ∀ x, e ≠ .size g x) : v'.word (fSize g) = v.word (fSize g) :=
  he.field h hon hg (.inr ⟨rfl, hne⟩)

/-- The changes that free blocks of `f`, or store to its size or its data. -/
def Edit.Alters (f : ℕ) : Edit → Prop
  | .dropData g _ | .dropIndirect g | .size g _ | .write g _ => g = f
  | _ => False

theorem Edits.target_same (he : Edits v e v') (h : OwnOn S D v) (hon : e.On S D) (hf : f ∈ S)
    (halt : ¬ e.Alters f) (hp : p.Valid) (hne : target v f p ≠ 0#32) :
    target v' f p = target v f p := by
  cases e with
  | ram | write | name => exact (he.after_keep h hon nofun).target f hf p hp
  | size g x =>
      exact (he.after_keep h hon fun c hs => ⟨g, by cases c <;> exact hs⟩).target f hf p hp
  | data g n b =>
    rw [(he.after_data h hon).target f hf p hp]
    refine if_neg ?_
    rintro ⟨rfl, rfl⟩
    cases he with
    | data hreach h0 => exact hne (hreach.target.trans h0)
  | indirect g b =>
    rw [(he.after_indirect h hon).target f hf p hp]
    refine if_neg ?_
    rintro ⟨rfl, rfl⟩
    cases he with
    | indirect h0 => exact hne h0
  | dropData g n =>
    rw [(he.after_dropData h hon.1 hon.2).target f hf p hp]
    exact if_neg (not_and_of_not_left _ fun heq => halt heq.symm)
  | dropIndirect g =>
    rw [(he.after_dropIndirect h hon.1 hon.2).target f hf p hp]
    exact if_neg (not_and_of_not_left _ fun heq => halt heq.symm)

/-- The bytes of a block of a file that are not in the structure of one. -/
theorem OwnOn.clean_block {n x : ℕ} (h : OwnOn S D v) (hf : f ∈ S) (hn : n < ndirect + nindirect)
    (hne : target v f (.data n) ≠ 0#32) (hx : InBlock (target v f (.data n)) x)
    (hx' : NotField S x) : Clean S v x := by
  by_cases hD : f ∈ D
  · exact h.clean_dir hD hn hne hx hx'
  · exact h.clean_data hf hD hn hne hx

/-- The blocks of a file are written to as its data, or as the names of a directory. -/
theorem Edits.not_writes {n x : ℕ} (he : Edits v e v') (h : OwnOn S D v) (hon : e.On S D)
    (hf : f ∈ S)
    (halt : ¬ e.Alters f) (hname : ∀ k j, e = .name f k j → False) (hn : n < ndirect + nindirect)
    (hne : target v f (.data n) ≠ 0#32) (hx : InBlock (target v f (.data n)) x) :
    ¬ e.Writes v x := by
  intro hw
  obtain ⟨_, hlt, hused⟩ := h.range f hf (.data n) hn hne
  cases he with
  | ram g hoff =>
    have hin := inMap_block (h.toNat_lt hlt) hx
    simp only [Edit.Writes, OffMap, InMap] at *
    omega
  | indirect _ _ hfree =>
    obtain rfl := hx.unique (h.toNat_lt hlt) (h.toNat_lt hfree.1) hw
    exact hused hfree
  | write g hreach hne' hlt' =>
    rw [← hreach.target] at hne' hlt'
    have heq := hx.unique (h.toNat_lt hlt) (h.toNat_lt hlt') hw
    obtain ⟨rfl, _⟩ := h.inj f hf (.data n) hn _ hon.1 (.data _) hreach.1 hne heq
    exact halt rfl
  | @name d k j m g hreach hne' hlt' hj hm =>
    rw [← hreach.target] at hne' hlt'
    have hin : InBlock (target v d (.data k)) x := by
      simp only [Edit.Writes] at hw
      simp only [InBlock, blksize, blkfiles] at *
      omega
    have heq := hx.unique (h.toNat_lt hlt) (h.toNat_lt hlt') hin
    obtain ⟨rfl, _⟩ := h.inj f hf (.data n) hn _ (h.sub hon) (.data _) hreach.1 hne heq
    exact hname _ _ rfl
  | data | dropData | dropIndirect | size => exact hw

end Frames

/-! ### Calls that add blocks -/

/-- The changes of a call that only adds blocks, where `B` allows them. -/
def Edit.Adds (S : Set ℕ) (B : ℕ → ℕ → Prop) : Edit → Prop
  | .ram _ _ => True
  | .indirect f _ => f ∈ S ∧ ∃ n, ndirect ≤ n ∧ B f n
  | .data f n _ => f ∈ S ∧ B f n
  | _ => False

/-- `v` comes from `v₀` by adding blocks where `B` allows them, with the sizes `L`: all blocks are
    as they were, apart from the structures of the files. -/
structure Grown (S D : Set ℕ) (B : ℕ → ℕ → Prop) (L : ℕ → Word) (v₀ v : ByteMem) : Prop where
  own : OwnOn S D v
  nblocks : v.word sNblocks = v₀.word sNblocks
  type : ∀ f ∈ S, v.word (fType f) = v₀.word (fType f)
  size : ∀ f ∈ S, v.word (fSize f) = L f
  target : ∀ f ∈ S, ∀ p : Ptr, p.Valid → target v₀ f p ≠ 0#32 → target v f p = target v₀ f p
  slots : ∀ f ∈ S, ∀ n, n < ndirect + nindirect → ¬ B f n →
    Fs.target v f (.data n) = Fs.target v₀ f (.data n)
  added : ∀ f ∈ S, ∀ n, n < ndirect + nindirect → Fs.target v₀ f (.data n) = 0#32 →
    Fs.target v f (.data n) ≠ 0#32 → IsFree v₀ (Fs.target v f (.data n))
  free : ∀ t, IsFree v t → IsFree v₀ t ∧ ∀ x, InBlock t x → v x = v₀ x
  bytes : ∀ f ∈ S, ∀ n, n < ndirect + nindirect → Fs.target v f (.data n) ≠ 0#32 →
    ∀ x, InBlock (Fs.target v f (.data n)) x → NotField S x → v x = v₀ x

section Growth

variable {S D : Set ℕ} {B B' : ℕ → ℕ → Prop} {L : ℕ → Word} {v v' v₀ : ByteMem} {e : Edit} {f : ℕ}

theorem Edit.Adds.on (h : e.Adds S B) : e.On S D := by
  cases e with
  | ram => trivial
  | indirect | data => exact h.1
  | dropData | dropIndirect | size | write | name => exact h.elim

theorem Edit.Adds.not_alters (h : e.Adds S B) : ¬ e.Alters f := by
  cases e <;> first | exact id | exact fun _ => h

theorem Grown.refl (h : OwnOn S D v) : Grown S D B (fun f => v.word (fSize f)) v v :=
  ⟨h, rfl, fun _ _ => rfl, fun _ _ => rfl, fun _ _ _ _ _ => rfl, fun _ _ _ _ _ => rfl,
    fun _ _ _ _ hzero hne => absurd hzero hne, fun _ ht => ⟨ht, fun _ _ => rfl⟩,
    fun _ _ _ _ _ _ _ _ => rfl⟩

theorem Grown.mono (h : Grown S D B L v₀ v) (hB : ∀ f n, B f n → B' f n) : Grown S D B' L v₀ v :=
  ⟨h.own, h.nblocks, h.type, h.size, h.target, fun f hf n hn hno => h.slots f hf n hn fun hb =>
    hno (hB f n hb), h.added, h.free, h.bytes⟩

/-- The blocks that are free after the change, and those that a file has then. -/
theorem Edits.adds_blocks (he : Edits v e v') (h : OwnOn S D v) (hadd : e.Adds S B) :
    (∀ t, IsFree v' t → IsFree v t ∧ ∀ x, InBlock t x → v' x = v x) ∧
    ∀ f ∈ S, ∀ n, n < ndirect + nindirect → target v' f (.data n) = target v f (.data n) ∨
      B f n ∧ IsFree v (target v' f (.data n)) ∧
        ∀ x, InBlock (target v' f (.data n)) x → v' x = v x := by
  have hon : e.On S D := hadd.on
  cases e with
  | dropData | dropIndirect | size | write | name => exact hadd.elim
  | ram a n =>
    have ha := he.after_keep h hon nofun
    refine ⟨fun t ht => ?_, fun f hf n hn => .inl (ha.target f hf (.data n) hn)⟩
    rw [ha.free] at ht
    refine ⟨ht, fun x hx => he.bytes h hon (h.clean_free ht hx) fun hw => ?_⟩
    have hin := inMap_block (h.toNat_lt ht.1) hx
    cases he with
    | ram g hoff =>
      simp only [Edit.Writes, OffMap, InMap] at *
      omega
  | data g m b =>
    have ha := he.after_data h hon
    have hfree : IsFree v b := by
      cases he with
      | data _ _ _ hfree => exact hfree
    refine ⟨fun t ht => ?_, fun f hf n hn => ?_⟩
    · rw [ha.free] at ht
      exact ⟨ht.1, fun x hx => he.bytes h hon (h.clean_free ht.1 hx) id⟩
    · rw [ha.target f hf (.data n) hn]
      split
      · next heq =>
        obtain ⟨rfl, heq⟩ := heq
        cases heq
        exact .inr ⟨hadd.2, hfree, fun x hx => he.bytes h hon (h.clean_free hfree hx) id⟩
      · exact .inl rfl
  | indirect g b =>
    have ha := he.after_indirect h hon
    have hfree : IsFree v b := by
      cases he with
      | indirect _ _ hfree => exact hfree
    refine ⟨fun t ht => ?_, fun f hf n hn => .inl ?_⟩
    · rw [ha.free] at ht
      -- the block that is cleared is not free any more
      refine ⟨ht.1, fun x hx => he.bytes h hon (h.clean_free ht.1 hx) fun hw => ?_⟩
      exact ht.2 (hx.unique (h.toNat_lt ht.1.1) (h.toNat_lt hfree.1) hw)
    · rw [ha.target f hf (.data n) hn, if_neg (fun hno => by cases hno.2)]

theorem Grown.step (hg : Grown S D B L v₀ v) (hadd : e.Adds S B) (he : Edits v e v') :
    Grown S D B L v₀ v' := by
  have hon : e.On S D := hadd.on
  obtain ⟨hfree, htgt⟩ := he.adds_blocks hg.own hadd
  refine ⟨hg.own.step hon he, (he.nblocks hg.own hon).trans hg.nblocks,
    fun f hf => (he.type hg.own hon hf).trans (hg.type f hf), fun f hf =>
    ?_, fun f hf p hp hne => ?_,
    fun f hf n hn hno => ?_, fun f hf n hn hzero hne => ?_, fun t ht => ?_,
    fun f hf n hn hne x hx hx' => ?_⟩
  · refine Eq.trans (he.size_same hg.own hon hf fun x hx => ?_) (hg.size f hf)
    rw [hx] at hadd
    exact hadd
  · have hsame := hg.target f hf p hp hne
    rw [← hsame] at hne ⊢
    exact he.target_same hg.own hon hf hadd.not_alters hp hne
  · rcases htgt f hf n hn with heq | ⟨hB, _⟩
    · exact heq.trans (hg.slots f hf n hn hno)
    · exact absurd hB hno
  · rcases htgt f hf n hn with heq | ⟨_, hfreeb, _⟩
    · rw [heq] at hne ⊢
      exact hg.added f hf n hn hzero hne
    · exact (hg.free _ hfreeb).1
  · obtain ⟨ht', hbytes⟩ := hfree t ht
    obtain ⟨ht'', hbytes'⟩ := hg.free t ht'
    exact ⟨ht'', fun x hx => (hbytes x hx).trans (hbytes' x hx)⟩
  · rcases htgt f hf n hn with heq | ⟨_, hfreeb, hbytes⟩
    · rw [heq] at hne hx
      refine Eq.trans ?_ (hg.bytes f hf n hn hne x hx hx')
      refine he.bytes hg.own hon (hg.own.clean_block hf hn hne hx hx')
        (he.not_writes hg.own hon hf hadd.not_alters (fun k j hno => ?_) hn hne hx)
      rw [hno] at hadd
      exact hadd
    · exact (hbytes x hx).trans ((hg.free _ hfreeb).2 x hx)

theorem Grown.closed (v₀ : ByteMem) : Closed (Edit.Adds S B) (Grown S D B L v₀) :=
  ⟨fun _ h => h.own.sized, fun _ _ _ h hK he => h.step hK he⟩

theorem Grown.resize {x : Word} (hg : Grown S D B L v₀ v) (hf : f ∈ S)
    (he : Edits v (.size f x) v') : Grown S D B (update L f x) v₀ v' := by
  have hon : (Edit.size f x).On S D := hf
  have ha := he.after_keep hg.own hon fun c hs => ⟨f, by cases c <;> exact hs⟩
  refine ⟨hg.own.step hon he, ha.nblocks.trans hg.nblocks,
    fun g hf => (he.type hg.own hon hf).trans (hg.type g hf), fun g hgS => ?_,
    fun g hgS p hp hne => (ha.target g hgS p hp).trans (hg.target g hgS p hp hne),
    fun g hgS n hn hno => (ha.target g hgS (.data n) hn).trans (hg.slots g hgS n hn hno),
    fun g hgS n hn hzero hne => ?_, fun t ht => ?_, fun g hgS n hn hne y hy hy' => ?_⟩
  · by_cases heq : g = f
    · rw [heq, update_self]
      cases he with
      | size => exact word_putWord_self ..
    · rw [update_of_ne heq, ← hg.size g hgS]
      refine he.size_same hg.own hon hgS fun y hy => heq ?_
      exact (Edit.size.inj hy).1.symm
  · rw [ha.target g hgS (.data n) hn] at hne ⊢
    exact hg.added g hgS n hn hzero hne
  · rw [ha.free] at ht
    obtain ⟨ht', hbytes⟩ := hg.free t ht
    exact ⟨ht', fun y hy => (he.bytes hg.own hon (hg.own.clean_free ht hy) id).trans (hbytes y hy)⟩
  · rw [ha.target g hgS (.data n) hn] at hne hy
    exact (he.bytes hg.own hon (hg.own.clean_block hgS hn hne hy hy') id).trans
      (hg.bytes g hgS n hn hne y hy hy')

theorem Grown.walkable {N : ℕ} (hf : f ∈ S) (hle : sRoot ≤ f) (hB : ∀ n < N, B f n) :
    Walkable (Edit.Adds S B) (Grown S D B L v₀) f N where
  closed := Grown.closed v₀
  anchored := fun v n b v' h he => OwnOn.anchored hf v n b v' h.own he
  root_le := hle
  indirect := fun n hn hle _ => ⟨hf, n, hle, hB n hn⟩
  data := fun n hn _ => ⟨hf, hB n hn⟩

theorem OwnOn.notField_entry {d n j : ℕ} (h : OwnOn S D v) (hd : d ∈ D)
    (hn : n < ndirect + nindirect)
    (hj : j < blkfiles) (hne : target v d (.data n) ≠ 0#32) :
    NotField S (blkaddr (target v d (.data n)) + 256 * j) ∧
      InBlock (target v d (.data n)) (blkaddr (target v d (.data n)) + 256 * j) := by
  refine ⟨(h.clean_entry (k := 1) hd hn hj hne (by omega) (le_refl _)
    (by omega)).notField, by omega, ?_⟩
  simp only [blkfiles, blksize] at *
  omega

/-- Free blocks hold zeros. -/
def FreeBlank (v : ByteMem) : Prop := ∀ t, IsFree v t → ∀ x, InBlock t x → v x = 0#8

/-- The block that comes to a position of a directory holds zeros: the one that is there, or else
    any that is free. -/
def ClearAt (v : ByteMem) (d n : ℕ) : Prop :=
  (target v d (.data n) = 0#32 → FreeBlank v) ∧
    (target v d (.data n) ≠ 0#32 → ∀ x, InBlock (target v d (.data n)) x → v x = 0#8)

/-- Where a directory has a hole, free blocks hold zeros. -/
def NoStaleHoles (v : ByteMem) : Prop :=
  ∀ d ∈ dirs v, ∀ n < dirLen v d, n < ndirect + nindirect →
    target v d (.data n) = 0#32 → FreeBlank v

section

variable (hg : Grown (tree v₀) (dirs v₀) B L v₀ v)
include hg

theorem Grown.clear {d n : ℕ} (hd : d ∈ tree v₀) (hn : n < ndirect + nindirect)
    (hne : Fs.target v d (.data n) ≠ 0#32) (h : ClearAt v₀ d n) {x : ℕ}
    (hx : InBlock (Fs.target v d (.data n)) x) : v₀ x = 0#8 := by
  by_cases hzero : Fs.target v₀ d (.data n) = 0#32
  · exact h.1 hzero _ (hg.added d hd n hn hzero hne) x hx
  · rw [hg.target d hd (.data n) hn hzero] at hx
    exact h.2 hzero x hx

theorem Grown.sameNames : SameNames v₀ ∅ v := by
  refine ⟨hg.type, fun d hd n j hn hj hne => .inl ?_⟩
  obtain ⟨hnot, hin⟩ := hg.own.notField_entry hd hn hj hne
  exact hg.bytes d hd.1 n hn hne _ hin hnot

/-- **What comes into a directory** was there already, in its place, or held zeros. -/
theorem Grown.fresh (h : ∀ d ∈ dirs v₀, ∀ n, n < dirLen v d → n < ndirect + nindirect →
    Fs.target v₀ d (.data n) ≠ 0#32 ∧ n < dirLen v₀ d ∨ ClearAt v₀ d n) : Fresh v₀ v := by
  intro d hd n hlen hn hne
  rcases h d hd n hlen hn with ⟨hne0, hlen0⟩ | hclear
  · exact .inl ⟨(hg.target d hd.1 (.data n) hn hne0).symm, hlen0⟩
  · exact .inr fun _ hx => hg.clear hd.1 hn hne hclear hx

theorem Grown.tree_ge (hfresh : Fresh v₀ v) : tree v ⊆ tree v₀ :=
  tree_sub (root_mem_tree v₀) fun _ hd e he =>
    (hfresh.edge_mem hg.sameNames hd he).resolve_right (Set.notMem_empty e)

theorem Grown.owned (hfresh : Fresh v₀ v) : Owned v :=
  hg.own.owned fun _ hf => .inl (hg.tree_ge hfresh hf)

end

end Growth

/-! ### Directories that become longer -/

def sizes (v : ByteMem) (f : ℕ) : Word := v.word (fSize f)

/-- The blocks of the directories of `D`, if their sizes are `L`. -/
def inDirs (D : Set ℕ) (L : ℕ → Word) (d n : ℕ) : Prop := d ∈ D ∧ n < ((L d).sdiv 4096#32).toNat

/-- The directory has all its blocks, and no entry in them is without a name. -/
def Full (v : ByteMem) (dir : ℕ) : Prop := ∀ n < dirLen v dir, n < ndirect + nindirect ∧
  (target v dir (.data n) ≠ 0#32 →
    ∀ j < blkfiles, v (blkaddr (target v dir (.data n)) + 256 * j) ≠ 0#8)

theorem Full.dirLen_le {v : ByteMem} {dir : ℕ} (h : Full v dir) :
    dirLen v dir ≤ ndirect + nindirect := by
  by_contra hgt
  have := (h (ndirect + nindirect) (by omega)).1
  omega

/-- The sizes of `v`, or those with one directory that was full longer by a block. -/
def Stretch (v : ByteMem) (L : ℕ → Word) : Prop :=
  L = sizes v ∨ ∃ dir ∈ dirs v, (sizes v dir).srem 4096#32 = 0#32 ∧ Full v dir ∧
    L = update (sizes v) dir (sizes v dir + 4096#32)

section Stretch

variable {v v₀ : ByteMem} {L : ℕ → Word} {B : ℕ → ℕ → Prop} {d e f : ℕ}

theorem dirLen_succ {x : Word} (hmod : x.srem 4096#32 = 0#32)
    (hlen : (x.sdiv 4096#32).toNat ≤ ndirect + nindirect) :
    ((x + 4096#32).sdiv 4096#32).toNat = (x.sdiv 4096#32).toNat + 1 := by
  have hx := dirSize_eq hmod hlen
  simp only [ndirect, nindirect] at hlen
  have hadd : (x + 4096#32).toNat = x.toNat + 4096 := by
    rw [BitVec.toNat_add]
    simp only [BitVec.toNat_ofNat]
    omega
  rw [sdiv_block (by omega), hadd]
  omega

theorem Stretch.dirLen_le (h : Stretch v L) (d : ℕ) : dirLen v d ≤ ((L d).sdiv 4096#32).toNat := by
  rcases h with rfl | ⟨dir, _, hmod, hfull, rfl⟩
  · exact le_refl _
  · by_cases hd : d = dir
    · rw [hd, update_self, dirLen_succ hmod hfull.dirLen_le]
      exact Nat.le_succ _
    · rw [update_of_ne hd]
      exact le_refl _

theorem Stretch.inDirs_mono (h : Stretch v L) {D : Set ℕ} (d n : ℕ) (hn : inDirs D (sizes v) d n) :
    inDirs D L d n := ⟨hn.1, hn.2.trans_le (h.dirLen_le d)⟩

theorem Grown.edge (hg : Grown (tree v₀) (dirs v₀) B L v₀ v) (hs : Stretch v₀ L) (hd : d ∈ tree v₀)
    (he : Edge v₀ d e) : Edge v d e ∧ v e = v₀ e := by
  obtain ⟨htype, n, j, hlen, hn, hj, hne, rfl, hbyte⟩ := he
  have hdir : d ∈ dirs v₀ := ⟨hd, htype⟩
  have htgt := hg.target d hd (.data n) hn hne
  rw [← htgt] at hne hbyte ⊢
  obtain ⟨hnot, hin⟩ := hg.own.notField_entry hdir hn hj hne
  have hsame := hg.bytes d hd n hn hne _ hin hnot
  refine ⟨⟨(hg.type d hd).trans htype, n, j, ?_, hn, hj, hne, rfl, ?_⟩, hsame⟩
  · rw [dirLen, hg.size d hd]
    exact hlen.trans_le (hs.dirLen_le d)
  · rw [hsame]
    exact hbyte

theorem tree_mono (h : ∀ d ∈ tree v₀, ∀ e, Edge v₀ d e → Edge v d e) : tree v₀ ⊆ tree v := by
  intro f hf
  induction hf with
  | refl => exact root_mem_tree v
  | tail hd hlast ih => exact ih.tail (h _ hd _ hlast)

theorem Grown.tree_le (hg : Grown (tree v₀) (dirs v₀) B L v₀ v) (hs : Stretch v₀ L) :
    tree v₀ ⊆ tree v :=
  tree_mono fun _ hd _ he => (hg.edge hs hd he).1

end Stretch

/-! ### Calls on a file that is not a directory -/

/-- The changes to `f` itself. -/
def Edit.Private (f : ℕ) : Edit → Prop
  | .ram _ _ => True
  | .indirect g _ | .data g _ _ | .size g _ | .dropData g _ | .dropIndirect g | .write g _ => g = f
  | .name _ _ _ => False

/-- The files of `v` other than `f` are those of `v₀`, apart from the structure of `f` in its
    directory. -/
structure Kept (S D : Set ℕ) (f : ℕ) (v₀ v : ByteMem) : Prop where
  own : OwnOn S D v
  nblocks : v.word sNblocks = v₀.word sNblocks
  type : ∀ g ∈ S, v.word (fType g) = v₀.word (fType g)
  size : ∀ g ∈ S, g ≠ f → v.word (fSize g) = v₀.word (fSize g)
  target : ∀ g ∈ S, g ≠ f → ∀ p : Ptr, p.Valid → target v g p = target v₀ g p
  bytes : ∀ g ∈ S, g ≠ f → ∀ n, n < ndirect + nindirect → Fs.target v g (.data n) ≠ 0#32 →
    ∀ x, InBlock (Fs.target v g (.data n)) x → (x < f + 128 ∨ f + 180 ≤ x) → v x = v₀ x

section Private

variable {S D : Set ℕ} {v v' v₀ : ByteMem} {e : Edit} {d f g : ℕ} {p : Ptr}

theorem Edit.Private.on (h : e.Private f) (hf : f ∈ S) (hD : f ∉ D) : e.On S D := by
  cases e with
  | ram => trivial
  | indirect g | data g | size g =>
    rw [show g = f from h]
    exact hf
  | dropData g | dropIndirect g | write g =>
    rw [show g = f from h]
    exact ⟨hf, hD⟩
  | name => exact h.elim

theorem Edit.Private.not_alters (h : e.Private f) (hg : g ≠ f) : ¬ e.Alters g := by
  cases e with
  | ram | indirect | data | name => exact id
  | dropData k | dropIndirect k | size k | write k => exact fun hk => hg (hk.symm.trans h)

theorem Edit.Private.sets {o : ℕ} (h : e.Private f) (hg : g ≠ f) : ¬ e.Sets v (.field g o) := by
  have hptr : ∀ p, ¬ (Cell.field g o).Same (ptrCell f p) := by
    intro p hs
    cases p with
    | indirect => exact hg (Cell.field.inj hs).1
    | data n =>
      rw [ptrCell] at hs
      split at hs
      · exact hg (Cell.field.inj hs).1
      · cases hs
  intro hs
  cases e with
  | ram | write | name => exact hs
  | size k =>
    rw [show k = f from h] at hs
    exact hg (Cell.field.inj hs).1
  | indirect k | dropIndirect k =>
    rw [show k = f from h] at hs
    rcases hs with hs | hs
    · cases hs
    · exact hg (Cell.field.inj hs).1
  | data k | dropData k =>
    rw [show k = f from h] at hs
    rcases hs with hs | hs
    · cases hs
    · exact hptr _ hs

theorem Edits.target_other (he : Edits v e v') (h : OwnOn S D v) (hpriv : e.Private f) (hf : f ∈ S)
    (hD : f ∉ D) (hg : g ∈ S) (hne : g ≠ f) (hp : p.Valid) : target v' g p = target v g p := by
  have hon : e.On S D := hpriv.on hf hD
  cases e with
  | name => exact hpriv.elim
  | ram | write => exact (he.after_keep h hon nofun).target g hg p hp
  | size k x =>
      exact (he.after_keep h hon fun c hs => ⟨k, by cases c <;> exact hs⟩).target g hg p hp
  | data k n b =>
    rw [(he.after_data h hon).target g hg p hp]
    exact if_neg (not_and_of_not_left _ fun hk => hne (hk.trans hpriv))
  | indirect k b =>
    rw [(he.after_indirect h hon).target g hg p hp]
    exact if_neg (not_and_of_not_left _ fun hk => hne (hk.trans hpriv))
  | dropData k n =>
    rw [(he.after_dropData h hon.1 hon.2).target g hg p hp]
    exact if_neg (not_and_of_not_left _ fun hk => hne (hk.trans hpriv))
  | dropIndirect k =>
    rw [(he.after_dropIndirect h hon.1 hon.2).target g hg p hp]
    exact if_neg (not_and_of_not_left _ fun hk => hne (hk.trans hpriv))

theorem Kept.refl (h : OwnOn S D v) : Kept S D f v v :=
  ⟨h, rfl, fun _ _ => rfl, fun _ _ _ => rfl, fun _ _ _ _ _ => rfl, fun _ _ _ _ _ _ _ _ _ => rfl⟩

theorem Edits.bytes_other {n x : ℕ} (he : Edits v e v') (h : OwnOn S D v) (hpriv : e.Private f)
    (hf : f ∈ S) (hD : f ∉ D) (hg : g ∈ S) (hgf : g ≠ f) (hn : n < ndirect + nindirect)
    (hne : target v g (.data n) ≠ 0#32) (hx : InBlock (target v g (.data n)) x)
    (hx' : x < f + 128 ∨ f + 180 ≤ x) : v' x = v x := by
  have hon : e.On S D := hpriv.on hf hD
  by_cases hclean : Clean S v x
  · refine he.bytes h hon hclean
      (he.not_writes h hon hg (hpriv.not_alters hgf) (fun k j hno => ?_) hn hne hx)
    rw [hno] at hpriv
    exact hpriv
  · -- a field of the structure of a file
    have hgD : g ∈ D := by
      by_contra hno
      exact hclean (h.clean_data hg hno hn hne hx)
    rw [Clean, not_forall] at hclean
    obtain ⟨c, hc⟩ := hclean
    rw [Classical.not_imp] at hc
    obtain ⟨hok, hcx⟩ := hc
    obtain ⟨j, o, rfl, h1, h2, _⟩ := h.cell_of_dir hgD hn hne hx hok hcx
    simp only [Cell.addr] at hcx
    have hword := he.cells h hon hok (hpriv.sets (by omega))
    exact byte_of_word hword (by simp only [Cell.addr]; omega) (by simp only [Cell.addr]; omega)

theorem Kept.step (hk : Kept S D f v₀ v) (hf : f ∈ S) (hD : f ∉ D) (hpriv : e.Private f)
    (he : Edits v e v') : Kept S D f v₀ v' := by
  have hon : e.On S D := hpriv.on hf hD
  refine ⟨hk.own.step hon he, (he.nblocks hk.own hon).trans hk.nblocks,
    fun g hg => (he.type hk.own hon hg).trans (hk.type g hg), fun g hg hne => ?_,
    fun g hg hgf p hp => (he.target_other hk.own hpriv hf hD hg hgf hp).trans
    (hk.target g hg hgf p hp), fun g hg hgf n hn hne x hx hx' => ?_⟩
  · refine Eq.trans (he.size_same hk.own hon hg fun x hno => ?_) (hk.size g hg hne)
    rw [hno] at hpriv
    exact hne hpriv
  · rw [he.target_other (p := .data n) hk.own hpriv hf hD hg hgf hn] at hne hx
    exact (he.bytes_other hk.own hpriv hf hD hg hgf hn hne hx hx').trans
      (hk.bytes g hg hgf n hn hne x hx hx')

theorem Kept.closed (hf : f ∈ S) (hD : f ∉ D) (v₀ : ByteMem) :
    Closed (Edit.Private f) (Kept S D f v₀) :=
  ⟨fun _ h => h.own.sized, fun _ _ _ h hK he => h.step hf hD hK he⟩

section

variable (hk : Kept (tree v₀) (dirs v₀) f v₀ v)
include hk

section

variable (hf : f ∈ tree v₀)
include hf

theorem Kept.sameNames (hD : f ∉ dirs v₀) :
    SameNames v₀ ∅ v := by
  refine ⟨hk.type, fun d hd n j hn hj hne => .inl ?_⟩
  obtain ⟨hnot, hin⟩ := hk.own.notField_entry hd hn hj hne
  exact hk.bytes d hd.1 (ne_of_mem_of_not_mem hd hD) n hn hne _ hin (hnot f hf)

theorem Kept.tree_ge (hD : f ∉ dirs v₀) :
    tree v ⊆ tree v₀ := by
  have hfresh : Fresh v₀ v := by
    intro d hd n hlen hn hne
    have hdf : d ≠ f := ne_of_mem_of_not_mem hd hD
    refine .inl ⟨(hk.target d hd.1 hdf (.data n) hn).symm, ?_⟩
    rwa [dirLen, hk.size d hd.1 hdf] at hlen
  exact tree_sub (root_mem_tree v₀) fun d hd e he =>
    (hfresh.edge_mem (hk.sameNames hf hD) hd he).resolve_right (Set.notMem_empty e)

/-- A call on a file that is not a directory keeps the tree, and ownership. -/
theorem Kept.owned (hD : f ∉ dirs v₀) : Owned v :=
  hk.own.owned fun _ hg => .inl (hk.tree_ge hf hD hg)

theorem Kept.tree_le (hD : f ∉ dirs v₀) :
    tree v₀ ⊆ tree v := by
  refine tree_mono fun d hd e he => ?_
  obtain ⟨htype, n, j, hlen, hn, hj, hne, rfl, hbyte⟩ := he
  have hdir : d ∈ dirs v₀ := ⟨hd, htype⟩
  have hdf : d ≠ f := ne_of_mem_of_not_mem hdir hD
  have htgt := hk.target d hd hdf (.data n) hn
  rw [← htgt] at hne hbyte ⊢
  refine ⟨(hk.type d hd).trans htype, n, j, ?_, hn, hj, hne, rfl, ?_⟩
  · rw [dirLen, hk.size d hd hdf]
    exact hlen
  · obtain ⟨hnot, hin⟩ := hk.own.notField_entry hdir hn hj hne
    rw [hk.bytes d hd hdf n hn hne _ hin (hnot f hf)]
    exact hbyte

end

end

end Private

section Paths

variable {v₀ v : ByteMem} {s s' : Server} {f : ℕ} {L : ℕ → Word}

theorem HasBlock.target {n : ℕ} {t : Word} (h : HasBlock v f n t) :
    n < ndirect + nindirect ∧ target v f (.data n) = t ∧ t ≠ 0#32 :=
  ⟨h.1.1, h.1.target.trans h.2.1, h.2.2.1⟩

theorem EntryAt.target {dir n j e : ℕ} (h : EntryAt v dir n j e) :
    n < ndirect + nindirect ∧ j < blkfiles ∧ target v dir (.data n) ≠ 0#32 ∧
      e = blkaddr (Fs.target v dir (.data n)) + 256 * j := by
  obtain ⟨⟨t, hblk, rfl⟩, hj⟩ := h
  obtain ⟨hn, rfl, hne⟩ := hblk.target
  exact ⟨hn, hj, hne, rfl⟩

theorem NameIs.ne_zero {p : ℕ} {name : List Byte} (h : NameIs v p name) (hname : name ≠ []) :
    v p ≠ 0#8 := by
  cases name with
  | nil => exact absurd rfl hname
  | cons c cs => exact h.1

/-- The state after some of the walk along a path, or all of it. -/
abbrev Looked (v₀ : ByteMem) : ByteMem → Prop :=
  Grown (tree v₀) (dirs v₀) (inDirs (dirs v₀) (sizes v₀)) (sizes v₀) v₀

/-- The changes of the walk. -/
abbrev Edit.Looks (v₀ : ByteMem) : Edit → Prop := Edit.Adds (tree v₀) (inDirs (dirs v₀) (sizes v₀))

theorem Looked.walkable (hl : Live (Looked v₀) s) (hdir : f ∈ dirs v₀) :
    Walkable (Edit.Looks v₀) (Looked v₀) f (dirLen s.view f) := by
  refine Grown.walkable hdir.1 (hl.inv.own.sRoot_le hdir.1) fun n hn => ⟨hdir, ?_⟩
  rw [dirLen, hl.inv.size f hdir.1] at hn
  exact hn

/-- Without a directory that becomes longer, holes are filled. -/
theorem Grown.fresh_of_holes {B : ℕ → ℕ → Prop}
    (hg : Grown (tree v₀) (dirs v₀) B (sizes v₀) v₀ v) (hholes : NoStaleHoles v₀) : Fresh v₀ v := by
  refine hg.fresh fun d hd n hlen hn => ?_
  rw [dirLen, hg.size d hd.1] at hlen
  by_cases hzero : Fs.target v₀ d (.data n) = 0#32
  · exact .inr ⟨fun _ => hholes d hd n hlen hn hzero, fun hne => absurd hzero hne⟩
  · exact .inl ⟨hzero, hlen⟩

theorem walkFrom_looked {comps : List (List Byte)} (hcomps : ∀ c ∈ comps, c ≠ [])
    {dir : Option ℕ} {w : Walk}
    (hf : f ∈ tree v₀) (hl : Live (Looked v₀) s) (hholes : NoStaleHoles v₀)
    (h : walkFrom dir f comps s = some (w, s')) :
    Made (Edit.Looks v₀) s s' ∧ (∀ d g, w = .found d g → g ∈ tree v₀) ∧
      ∀ d name, w = .missing d name → d ∈ dirs v₀ ∧ name.length < maxnamelen ∧ name ∈ comps := by
  induction comps generalizing dir f s with
  | nil =>
    obtain ⟨rfl, rfl⟩ := pure_eq_some.mp h
    refine ⟨.of_fills (.refl s), fun d g hw => ?_, nofun⟩
    obtain ⟨_, rfl⟩ := Walk.found.inj hw
    exact hf
  | cons name rest ih =>
    rw [walkFrom] at h
    split at h
    · obtain ⟨rfl, rfl⟩ := pure_eq_some.mp h
      exact ⟨.of_fills (.refl s), nofun, nofun⟩
    · next hlen =>
      obtain ⟨w', s1, hload, h⟩ := bind_eq_some.mp h
      obtain ⟨hfill, rfl⟩ := loadw_cases hload
      have hmade1 : Made (Edit.Looks v₀) s s1 := .of_fills hfill
      have hl1 := hmade1.live (Grown.closed v₀) hl
      split at h
      · cases h
        exact ⟨hmade1, nofun, nofun⟩
      · next htype =>
        rw [not_not] at htype
        have hdir : f ∈ dirs v₀ := ⟨hf, by rw [← hl.inv.type f hf]; exact htype⟩
        obtain ⟨o, s2, hlook, h⟩ := bind_eq_some.mp h
        obtain ⟨hmade2, hok⟩ := dirLookup_made (Looked.walkable hl1 hdir) hl1 hlook
        have hl2 := hmade2.live (Grown.closed v₀) hl1
        cases o with
        | error r =>
          simp only at h
          split at h
          · cases h
            refine ⟨hmade1.trans hmade2, nofun, fun d name' hw => ?_⟩
            obtain ⟨rfl, rfl⟩ := Walk.missing.inj hw
            exact ⟨hdir, Nat.not_le.mp hlen, List.mem_cons_self⟩
          · cases h
            exact ⟨hmade1.trans hmade2, nofun, nofun⟩
        | ok f' =>
          -- the entry that is found is in the tree
          have hf' : f' ∈ tree v₀ := by
            obtain ⟨n, j, hlen, hentry, hname⟩ := hok f' rfl
            obtain ⟨hn, hj, hne, he⟩ := hentry.target
            have hedge : Edge s2.view f f' := by
              refine ⟨?_, n, j, ?_, hn, hj, hne, he, hname.ne_zero (hcomps name (by simp))⟩
              · rw [hl2.inv.type f hf]
                exact hdir.2
              · rw [dirLen, hl2.inv.size f hf, ← hl1.inv.size f hf]
                exact hlen
            have hfresh : Fresh v₀ s2.view := hl2.inv.fresh_of_holes hholes
            exact (hfresh.edge_mem hl2.inv.sameNames hf hedge).resolve_right (Set.notMem_empty _)
          obtain ⟨hmade3, hfound, hmiss⟩ := ih (fun c hc => hcomps c (by simp [hc])) hf' hl2 h
          refine ⟨(hmade1.trans hmade2).trans hmade3, hfound, fun d name' hw => ?_⟩
          obtain ⟨hd, hlen', hmem⟩ := hmiss d name' hw
          exact ⟨hd, hlen', List.mem_cons_of_mem _ hmem⟩

theorem components_ne_nil {path c : List Byte} (h : c ∈ components path) : c ≠ [] := by
  rw [components, List.mem_filter] at h
  simpa using h.2

theorem components_single {name : List Byte} (hname : name ≠ []) (hslash : 0x2F#8 ∉ name) :
    components name = [name] := by
  have hsplit : name.splitOn 0x2F#8 = [name] := by
    refine List.splitOnP_eq_singleton fun c hc => ?_
    rw [beq_eq_false_iff_ne]
    exact fun heq => hslash (heq ▸ hc)
  rw [components, hsplit]
  simp [hname]

theorem mem_intercalate {α : Type} {sep l : List α} {ls : List (List α)} {a : α} (hl : l ∈ ls)
    (ha : a ∈ l) : a ∈ sep.intercalate ls := by
  induction ls with
  | nil => cases hl
  | cons x xs ih =>
    cases xs with
    | nil =>
      rw [List.mem_singleton.mp hl] at ha
      simpa using ha
    | cons y ys =>
      rcases List.mem_cons.mp hl with rfl | hl
      · simp [ha]
      · simp [ih hl]

theorem mem_of_components {path c : List Byte} {b : Byte} (h : c ∈ components path) (hb : b ∈ c) :
    b ∈ path := by
  rw [components, List.mem_filter] at h
  have hpath : [0x2F#8].intercalate (path.splitOn 0x2F#8) = path := List.intercalate_splitOn _
  rw [← hpath]
  exact mem_intercalate h.1 hb

theorem walkPath_looked {path : List Byte} {w : Walk}
    (hown : OwnOn (tree s.view) (dirs s.view) s.view)
    (hsuper : s.super = true) (hholes : NoStaleHoles s.view)
    (h : walkPath path s = some (w, s')) :
    Live (Looked s.view) s' ∧ (∀ d g, w = .found d g → g ∈ tree s.view) ∧
      ∀ d name, w = .missing d name → d ∈ dirs s.view ∧ name.length < maxnamelen ∧
        name ∈ components path := by
  have hl : Live (Looked s.view) s := ⟨hsuper, .refl hown⟩
  obtain ⟨hmade, hres⟩ := walkFrom_looked (fun c hc => components_ne_nil hc)
    (root_mem_tree s.view) hl hholes h
  exact ⟨hmade.live (Grown.closed _) hl, hres⟩

theorem dirAllocFile_grown {dir : ℕ} {r : Except Int ℕ} (hl : Live (Looked v₀) s)
    (hdir : dir ∈ dirs v₀)
    (h : dirAllocFile dir s = some (r, s')) :
    ∃ L, Stretch v₀ L ∧ Live (Grown (tree v₀) (dirs v₀) (inDirs (dirs v₀) L) L v₀) s' ∧
      ∀ e, r = .ok e → ∃ n j, EntryAt s'.view dir n j e ∧ n < ((L dir).sdiv 4096#32).toNat ∧
        (s'.view e = 0#8 ∨ dirLen v₀ dir ≤ n) := by
  have hsize : ∀ t : Server, Live (Looked v₀) t → t.view.word (fSize dir) = sizes v₀ dir :=
    fun t ht => ht.inv.size dir hdir.1
  have hlen0 : dirLen s.view dir = dirLen v₀ dir := by
    rw [dirLen, hsize s hl]
    rfl
  rcases dirAllocFile_cases (Looked.walkable hl hdir)
    hl h with ⟨hmade, hok⟩ | ⟨s1, s2, hmade, hmod, hlack, hshows, hget⟩
  · refine ⟨sizes v₀, .inl rfl, hmade.live (Grown.closed v₀) hl, fun e he => ?_⟩
    obtain ⟨n, j, hlt, hentry, hzero⟩ := hok e he
    rw [hlen0] at hlt
    exact ⟨n, j, hentry, hlt, .inl hzero⟩
  · have hl1 := hmade.live (Grown.closed v₀) hl
    rw [hsize s1 hl1] at hshows
    rw [hsize s hl] at hmod
    rw [hlen0] at hlack hget
    have hfull : Full v₀ dir := by
      intro n hn
      obtain ⟨u, hlu, t, hblk, hno⟩ := hlack n hn
      obtain ⟨hlt, htgt, _⟩ := hblk.target
      refine ⟨hlt, fun hne j hj => ?_⟩
      have hsame := hlu.inv.target dir hdir.1 (.data n) hlt hne
      rw [← hsame] at hne
      obtain ⟨hnot, hin⟩ := hlu.inv.own.notField_entry hdir hlt hj hne
      rw [← hsame, ← hlu.inv.bytes dir hdir.1 n hlt hne _ hin hnot, htgt]
      exact hno j hj
    have hlen := hfull.dirLen_le
    have hstretch : Stretch v₀ (update (sizes v₀) dir (sizes v₀ dir + 4096#32)) :=
      .inr ⟨dir, hdir, hmod, hfull, rfl⟩
    generalize hL : update (sizes v₀) dir (sizes v₀ dir + 4096#32) = L at hstretch
    have hl2 : Live (Grown (tree v₀) (dirs v₀) (inDirs (dirs v₀) L) L v₀) s2 := by
      refine ⟨hshows.super.trans hl1.super, ?_⟩
      rw [hshows.view]
      have hresized := hl1.inv.resize hdir.1 (.size (f := dir) (x := sizes v₀ dir + 4096#32))
      rw [hL] at hresized
      exact hresized.mono hstretch.inDirs_mono
    have hnat : (BitVec.ofNat 32 (dirLen v₀ dir)).toNat = dirLen v₀ dir := by
      exact Nat.mod_eq_of_lt (dirLen_lt v₀ dir)
    have hw : Walkable (Edit.Adds (tree v₀) (inDirs (dirs v₀) L)) (Grown (tree v₀) (dirs v₀)
        (inDirs (dirs v₀) L) L v₀) dir (dirLen v₀ dir + 1) := by
      refine Grown.walkable hdir.1 (hl.inv.own.sRoot_le hdir.1) fun n hn => ⟨hdir, ?_⟩
      rw [← hL, update_self, dirLen_succ hmod hlen]
      exact hn
    obtain ⟨hmade3, hok⟩ := hw.getBlock hl2 (by rw [hnat]; exact Nat.lt_succ_self _) hget
    refine ⟨L, hstretch, hmade3.live hw.closed hl2, fun e he => ?_⟩
    obtain ⟨t, hblk, rfl⟩ := hok e he
    rw [hnat] at hblk
    refine ⟨_, 0, ⟨⟨t, hblk, rfl⟩, by decide⟩, ?_, .inr (le_refl _)⟩
    rw [← hL, update_self, dirLen_succ hmod hlen]
    exact Nat.lt_succ_self _

theorem EntryAt.name_edit {dir n j e m : ℕ} (h : EntryAt v dir n j e) (hm : m ≤ maxnamelen)
    (g : ℕ → Byte) : Edits v (.name dir n j) (v.overwrite e m g) := by
  obtain ⟨⟨t, ⟨hreach, rfl, hne, hlt⟩, rfl⟩, hj⟩ := h
  exact .name g hreach hne hlt hj hm

/-- What `file_create` may bring into a directory holds zeros, and an entry without a name has no
    block pointers. -/
structure Spotless (v : ByteMem) : Prop where
  holes : NoStaleHoles v
  next : ∀ d ∈ dirs v, Full v d → dirLen v d < ndirect + nindirect → ClearAt v d (dirLen v d)
  empty : ∀ d ∈ dirs v, ∀ n < dirLen v d, n < ndirect + nindirect → target v d (.data n) ≠ 0#32 →
    ∀ j < blkfiles, v (blkaddr (target v d (.data n)) + 256 * j) = 0#8 →
      ∀ p : Ptr, p.Valid → target v (blkaddr (target v d (.data n)) + 256 * j) p = 0#32

theorem Spotless.clearAt (h : Spotless v) (hs : Stretch v L) {d n : ℕ} (hd : d ∈ dirs v)
    (hlen : n < ((L d).sdiv 4096#32).toNat) (hn : n < ndirect + nindirect) :
    target v d (.data n) ≠ 0#32 ∧ n < dirLen v d ∨ ClearAt v d n := by
  by_cases hlt : n < dirLen v d
  · by_cases hzero : target v d (.data n) = 0#32
    · exact .inr ⟨fun _ => h.holes d hd n hlt hn hzero, fun hne => absurd hzero hne⟩
    · exact .inl ⟨hzero, hlt⟩
  · -- the directory has become longer, so it was full
    rcases hs with rfl | ⟨dir, _, hmod, hfull, rfl⟩
    · exact absurd hlen hlt
    · by_cases hdd : d = dir
      · subst hdd
        rw [update_self, dirLen_succ hmod hfull.dirLen_le] at hlen
        obtain rfl : n = dirLen v d := Nat.le_antisymm (Nat.lt_succ_iff.mp hlen) (Nat.not_lt.mp hlt)
        exact .inr (h.next d hd hfull hn)
      · rw [update_of_ne hdd] at hlen
        exact absurd hlen hlt

theorem Grown.fresh_of_stretch {B : ℕ → ℕ → Prop} (hg : Grown (tree v₀) (dirs v₀) B L v₀ v)
    (hs : Stretch v₀ L) (hclean : Spotless v₀) : Fresh v₀ v := by
  refine hg.fresh fun d hd n hlen hn => ?_
  rw [dirLen, hg.size d hd.1] at hlen
  exact hclean.clearAt hs hd hlen hn

theorem target_zero (hdirect : ∀ n < ndirect, v.word (fDirect f n) = 0#32)
    (hind : v.word (fIndirect f) = 0#32) (p : Ptr) : target v f p = 0#32 := by
  cases p with
  | indirect => exact hind
  | data n =>
    rw [target, if_pos hind]
    split
    · next hn => exact hdirect n hn
    · rfl

theorem zero_entry {e : ℕ} (h : ∀ x, e ≤ x → x < e + 256 → v x = 0#8) :
    v.word (fSize e) = 0#32 ∧ ∀ p : Ptr, target v e p = 0#32 := by
  have hword : ∀ o, o + 4 ≤ 256 → v.word (e + o) = 0#32 := fun o ho =>
    word_zero fun x h1 h2 => h x (by omega) (by omega)
  refine ⟨hword 128 (by omega), target_zero (fun k hk => ?_) (hword 176 (by omega))⟩
  rw [fDirect, Nat.add_assoc]
  simp only [ndirect] at hk
  exact hword _ (by omega)

/-- A new name, at an entry of a directory that was not in use. -/
structure Named (L : ℕ → Word) (v₀ v : ByteMem) (dir n j e : ℕ) (v' : ByteMem) : Prop where
  stretch : Stretch v₀ L
  grown : Grown (tree v₀) (dirs v₀) (inDirs (dirs v₀) L) L v₀ v
  mem : dir ∈ dirs v₀
  entry : EntryAt v dir n j e
  len : n < ((L dir).sdiv 4096#32).toNat
  unused : v e = 0#8 ∨ dirLen v₀ dir ≤ n
  edit : Edits v (.name dir n j) v'

section Named

variable {v' : ByteMem} {dir n j e : ℕ}

section

variable (h : Named L v₀ v dir n j e v')
include h

theorem Named.bytes {x : ℕ} (hx : Clean (tree v₀) v x)
    (hout : x < e ∨ e + 128 ≤ x) : v' x = v x := by
  obtain ⟨_, _, _, he⟩ := h.entry.target
  refine h.edit.bytes h.grown.own h.mem hx ?_
  simp only [Edit.Writes, ← he]
  omega

theorem Named.apart {d' n' j' : ℕ} (hd' : d' ∈ dirs v₀)
    (hn' : n' < ndirect + nindirect) (hne' : target v d' (.data n') ≠ 0#32)
    (heq : blkaddr (target v d' (.data n')) + 256 * j' ≠ e) :
    blkaddr (target v d' (.data n')) + 256 * j' + 256 ≤ e ∨
      e + 256 ≤ blkaddr (target v d' (.data n')) + 256 * j' := by
  obtain ⟨hn, _, hne, he⟩ := h.entry.target
  have hown := h.grown.own
  have h1 := hown.toNat_lt (hown.range d' (hown.sub hd') (.data n') hn' hne').2.1
  have h2 := hown.toNat_lt (hown.range dir (hown.sub h.mem) (.data n) hn hne).2.1
  rw [blkaddr_lt h1] at heq ⊢
  rw [he, blkaddr_lt h2] at heq ⊢
  simp only [diskmap, blksize] at *
  omega

theorem Named.after : After (tree v₀) v v' (IsFree v) (target v) :=
  h.edit.after_keep h.grown.own h.mem nofun

theorem Named.own : OwnOn (tree v₀) (dirs v₀) v' :=
  h.grown.own.step (show (Edit.name dir n j).On _ _ from h.mem) h.edit

theorem Named.type (hf : f ∈ tree v₀) :
    v'.word (fType f) = v₀.word (fType f) :=
  (h.edit.type h.grown.own h.mem hf).trans (h.grown.type f hf)

theorem Named.size (hf : f ∈ tree v₀) : v'.word (fSize f) = L f :=
  (h.edit.size_same h.grown.own h.mem hf nofun).trans (h.grown.size f hf)

theorem Named.name {d' n' j' : ℕ} (hd' : d' ∈ dirs v₀)
    (hn' : n' < ndirect + nindirect) (hj' : j' < blkfiles) (hne' : target v d' (.data n') ≠ 0#32)
    (heq : blkaddr (target v d' (.data n')) + 256 * j' ≠ e) :
    v' (blkaddr (target v d' (.data n')) + 256 * j') =
    v (blkaddr (target v d' (.data n')) + 256 * j') := by
  obtain ⟨hnot, hin⟩ := h.grown.own.notField_entry hd' hn' hj' hne'
  have hapart := h.apart hd' hn' hne' heq
  exact h.bytes (h.grown.own.clean_dir hd' hn' hne' hin hnot) (by omega)

theorem Named.sameNames : SameNames v₀ {e} v' := by
  refine ⟨fun f hf => h.type hf, fun d' hd' n' j' hn' hj' hne' => ?_⟩
  rw [h.after.target d' hd'.1 (.data n') hn'] at hne' ⊢
  by_cases heq : blkaddr (target v d' (.data n')) + 256 * j' = e
  · exact .inr heq
  · left
    rw [h.name hd' hn' hj' hne' heq]
    obtain ⟨hnot, hin⟩ := h.grown.own.notField_entry hd' hn' hj' hne'
    exact h.grown.bytes d' hd'.1 n' hn' hne' _ hin hnot

theorem Named.not_edge {d : ℕ} (hd : d ∈ tree v₀) : ¬ Edge v₀ d e := by
  intro hedge
  obtain ⟨hn, hj, hne, he⟩ := h.entry.target
  obtain ⟨_, hsame⟩ := h.grown.edge h.stretch hd hedge
  obtain ⟨htype, k, i, hlen, hk, hi, hne0, he', hbyte⟩ := hedge
  rcases h.unused with hzero | hge
  · rw [hsame] at hzero
    exact hbyte hzero
  · -- the block would be one of two different pointers
    have hown := h.grown.own
    have htgt := h.grown.target d hd (.data k) hk hne0
    rw [← htgt] at hne0 he'
    have hin : InBlock (target v d (.data k)) e := by
      simp only [InBlock, blkfiles, blksize] at *
      omega
    have hin' : InBlock (target v dir (.data n)) e := by
      simp only [InBlock, blkfiles, blksize] at *
      omega
    have hblock := hin.unique (hown.toNat_lt (hown.range d hd (.data k) hk hne0).2.1)
      (hown.toNat_lt (hown.range dir h.mem.1 (.data n) hn hne).2.1) hin'
    obtain ⟨rfl, hkn⟩ := hown.inj d hd (.data k) hk dir h.mem.1 (.data n) hn hne0 hblock
    cases hkn
    omega

theorem Named.tree_le : tree v₀ ⊆ tree v' := by
  refine tree_mono fun d hd e' he' => ?_
  have hne' : e' ≠ e := by
    rintro rfl
    exact h.not_edge hd he'
  obtain ⟨⟨htype, k, i, hlen, hk, hi, hne, rfl, hbyte⟩, _⟩ := h.grown.edge h.stretch hd he'
  have hdir : d ∈ dirs v₀ := ⟨hd, (h.grown.type d hd).symm.trans htype⟩
  have htgt := h.after.target d hd (.data k) hk
  have hname := h.name hdir hk hi hne hne'
  rw [← htgt] at hne hname hbyte ⊢
  refine ⟨(h.type hd).trans hdir.2, k, i, ?_, hk, hi, hne, rfl, ?_⟩
  · rw [dirLen, h.size hd, ← h.grown.size d hd]
    exact hlen
  · rw [hname]
    exact hbyte

theorem Named.mem_tree (hbyte : v' e ≠ 0#8) : e ∈ tree v' := by
  obtain ⟨hn, hj, hne, he⟩ := h.entry.target
  have htgt := h.after.target dir h.mem.1 (.data n) hn
  rw [← htgt] at hne he
  refine (h.tree_le h.mem.1).tail ⟨(h.type h.mem.1).trans h.mem.2, n, j, ?_, hn, hj, hne, he, hbyte⟩
  rw [dirLen, h.size h.mem.1]
  exact h.len

/-- An entry that was not in the tree has the block pointers it had. -/
theorem Named.word (hmem : e ∉ tree v₀) {o : ℕ} (ho : 128 ≤ o)
    (ho' : o + 4 ≤ 256) : v'.word (e + o) = v₀.word (e + o) := by
  obtain ⟨hn, hj, hne, he⟩ := h.entry.target
  refine word_congr fun x h1 h2 => ?_
  have hclean : Clean (tree v₀) v x := by
    refine h.grown.own.clean_entry (k := 256) h.mem hn hj hne (.inr ⟨le_refl _, ?_⟩)
      (by omega) (by omega)
    rw [← he]
    exact hmem
  rw [h.bytes hclean (by omega)]
  refine h.grown.bytes dir h.mem.1 n hn hne x ?_ hclean.notField
  simp only [InBlock, blkfiles, blksize] at *
  omega

theorem Named.target_zero (hmem : e ∉ tree v₀)
    (hptr : ∀ p : Ptr, p.Valid → target v₀ e p = 0#32) {p : Ptr} (hp : p.Valid) :
    target v' e p = 0#32 := by
  have hind : v'.word (fIndirect e) = 0#32 :=
    (h.word hmem (o := 176) (by omega) (by omega)).trans (hptr .indirect trivial)
  cases p with
  | indirect => exact hind
  | data k =>
    by_cases hk : k < ndirect
    · have hold := hptr (.data k) hp
      rw [target, if_pos hk] at hold ⊢
      simp only [ndirect] at hk
      rw [fDirect, Nat.add_assoc] at hold ⊢
      rw [h.word hmem (by omega) (by omega), hold]
    · rw [target, if_neg hk, if_pos hind]

theorem Named.fresh (hclean : Spotless v₀) : Fresh v₀ v' := by
  have hfresh : Fresh v₀ v := h.grown.fresh_of_stretch h.stretch hclean
  intro d hd k hlen hk
  rw [dirLen, h.size hd.1, ← h.grown.size d hd.1] at hlen
  rw [h.after.target d hd.1 (.data k) hk]
  exact hfresh d hd k hlen hk

/-- The entry that is taken held zeros, or was an entry without a name. -/
theorem Named.was_unused (hclean : Spotless v₀) : (∀ x, e ≤ x → x < e + 256 → v₀ x = 0#8) ∨
    n < dirLen v₀ dir ∧ target v₀ dir (.data n) ≠ 0#32 ∧
      e = blkaddr (target v₀ dir (.data n)) + 256 * j ∧ v₀ e = 0#8 := by
  obtain ⟨hn, hj, hne, he⟩ := h.entry.target
  rcases hclean.clearAt h.stretch h.mem h.len hn with ⟨hne0, hlt⟩ | hclear
  · have hsame := h.grown.target dir h.mem.1 (.data n) hn hne0
    refine .inr ⟨hlt, hne0, by rw [he, hsame], ?_⟩
    obtain ⟨hnot, hin⟩ := h.grown.own.notField_entry h.mem hn hj hne
    rw [← he] at hnot hin
    rw [← h.grown.bytes dir h.mem.1 n hn hne e hin hnot]
    exact h.unused.resolve_right (by omega)
  · refine .inl fun x h1 h2 => h.grown.clear h.mem.1 hn hne hclear ?_
    simp only [InBlock, blkfiles, blksize] at hj ⊢
    omega

theorem Named.no_pointers (hclean : Spotless v₀) (p : Ptr) (hp : p.Valid) :
    target v₀ e p = 0#32 := by
  obtain ⟨hn, hj, _, _⟩ := h.entry.target
  rcases h.was_unused hclean with hzero | ⟨hlt, hne, rfl, hbyte⟩
  · exact (zero_entry hzero).2 p
  · exact hclean.empty dir h.mem n hlt hn hne j hj hbyte p hp

theorem Named.tree_sub (hfresh : Fresh v₀ v')
    (hptr : ∀ p : Ptr, p.Valid → target v₀ e p = 0#32) (hf : f ∈ tree v') :
    f ∈ tree v₀ ∨ f = e ∧ e ∉ tree v₀ := by
  have hedge : ∀ d ∈ tree v₀, ∀ e', Edge v' d e' → e' ∈ tree v₀ ∨ e' = e := fun d hd e' he' =>
    hfresh.edge_mem h.sameNames hd he'
  by_cases hmem : e ∈ tree v₀
  · refine .inl (Fs.tree_sub (root_mem_tree v₀) (fun d hd e' he' => ?_) hf)
    rcases hedge d hd e' he' with hin | rfl
    · exact hin
    · exact hmem
  · have hsub : f ∈ tree v₀ ∪ {e} := by
      refine Fs.tree_sub (.inl (root_mem_tree v₀)) (fun d hd e' he' => ?_) hf
      rcases hd with hd | rfl
      · exact hedge d hd e' he'
      · obtain ⟨_, k, _, _, hk, _, hne', _⟩ := he'
        exact absurd (h.target_zero hmem hptr (p := .data k) hk) hne'
    exact hsub.imp_right fun hfe => ⟨hfe, hmem⟩

theorem Named.owned (hfresh : Fresh v₀ v')
    (hptr : ∀ p : Ptr, p.Valid → target v₀ e p = 0#32) : Owned v' := by
  refine h.own.owned fun f hf => ?_
  rcases h.tree_sub hfresh hptr hf with hin | ⟨rfl, hmem⟩
  · exact .inl hin
  · exact .inr fun p hp => h.target_zero hmem hptr hp

end

end Named

end Paths

end LinuxStudy.Fs
