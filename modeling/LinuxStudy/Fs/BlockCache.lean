import LinuxStudy.Fs.Bc

/-!
# Coherence of the block cache

Accesses bring blocks into the cache and change nothing that a load can see. A store changes
what is seen at the addresses stored to. A page that is clean holds what is on the disk, so
`flush_block` has nothing to do for it.
-/

namespace LinuxStudy.Fs

open Jos
open Proc
  (fail_eq_some bind_eq_some require_eq_some get_eq_some when_pos pure_eq_some when_eq_some
    modify_eq_some bind_of_eq require_pos)
open ByteMem Server Proc
open BitVec (and_or_distrib_right toNat_ofNat)

section Flags

variable {w : Word}

theorem has_or_D : has (w ||| pteD) pteP ↔ has w pteP := by
  rw [has, has, and_or_distrib_right, show pteD &&& pteP = 0#32 by decide, BitVec.or_zero]

theorem has_remap_P : has (w &&& pteSyscall ||| pteP) pteP := by
  rw [has, BitVec.and_or_distrib_right, BitVec.and_assoc, show pteSyscall &&& pteP = pteP by decide,
    show pteP &&& pteP = pteP by decide]
  intro h
  have hor : (w &&& pteP ||| pteP) &&& pteP = pteP := by
    ext i hi
    simp only [BitVec.getElem_or, BitVec.getElem_and]
    cases pteP[i] <;> simp
  rw [h] at hor
  exact absurd hor (by decide)

theorem has_or_D_D : has (w ||| pteD) pteD := by
  rw [has, BitVec.and_or_distrib_right, BitVec.and_self]
  intro h
  have hor : (w &&& pteD ||| pteD) &&& pteD = pteD := by
    ext i hi
    simp only [BitVec.getElem_or, BitVec.getElem_and]
    cases pteD[i] <;> simp
  rw [h] at hor
  exact absurd hor (by decide)

end Flags

namespace Server

/-- A clean page of the cache is as on the disk. -/
def Coherent (s : Server) : Prop :=
  ∀ a, InMap a → s.Mapped (a / 4096) → ¬ s.Dirty (a / 4096) → s.mem a = s.disk a

variable {s : Server} {a pn : ℕ}

theorem view_of_mapped (h : s.Mapped (a / 4096)) : s.view a = s.mem a :=
  if_neg fun hn => hn.2 h

theorem view_of_not_mapped (hmap : InMap a) (h : ¬ s.Mapped (a / 4096)) : s.view a = s.disk a :=
  if_pos ⟨hmap, h⟩

theorem view_of_not_inMap (h : ¬ InMap a) : s.view a = s.mem a :=
  if_neg fun hn => h hn.1

/-- An address that a load does not fault at. -/
def Present (s : Server) (a : ℕ) : Prop := InMap a → s.Mapped (a / 4096)

theorem view_of_present (h : s.Present a) : s.view a = s.mem a := by
  by_cases hmap : InMap a
  · exact view_of_mapped (h hmap)
  · exact view_of_not_inMap hmap

end Server

/-- More blocks are in the cache, and nothing else has changed. -/
structure Fills (s s' : Server) : Prop where
  view : s'.view = s.view
  disk : s'.disk = s.disk
  super : s'.super = s.super
  bitmap : s'.bitmap = s.bitmap
  moves : s'.moves = s.moves
  uvpt : ∀ pn, s.Mapped pn → s'.uvpt pn = s.uvpt pn
  coherent : s.Coherent → s'.Coherent

namespace Fills

variable {s s' s'' : Server} {a pn : ℕ}

theorem refl (s : Server) : Fills s s := ⟨rfl, rfl, rfl, rfl, rfl, fun _ _ => rfl, id⟩

theorem mapped (h : Fills s s') (hm : s.Mapped pn) : s'.Mapped pn := by
  rw [Server.Mapped, h.uvpt pn hm]
  exact hm

theorem present (h : Fills s s') (hp : s.Present a) : s'.Present a := fun hmap => h.mapped (hp hmap)

theorem trans (h : Fills s s') (h' : Fills s' s'') : Fills s s'' where
  view := h'.view.trans h.view
  disk := h'.disk.trans h.disk
  super := h'.super.trans h.super
  bitmap := h'.bitmap.trans h.bitmap
  moves := h'.moves.trans h.moves
  uvpt pn hm := (h'.uvpt pn (h.mapped hm)).trans (h.uvpt pn hm)
  coherent hc := h'.coherent (h.coherent hc)

end Fills

/-! ### Page faults -/

/-- The page of an address: the addresses with the same page number. -/
theorem in_page {a x : ℕ} : a / 4096 * 4096 ≤ x ∧ x < a / 4096 * 4096 + 4096 ↔
    x / 4096 = a / 4096 := by
  omega

theorem inMap_of_page {a x : ℕ} (h : x / 4096 = a / 4096) : InMap x ↔ InMap a := by
  simp only [InMap, diskmap, disksize]
  omega

section Faults

variable {s s' : Server} {a depth : ℕ} {u : Unit}

theorem fill_page (hmap : InMap a) (hnot : ¬ s.Mapped (a / 4096)) :
    Fills s (((s.sysPageAlloc (a / 4096)).ideRead (a / 4096)).sysPageMap (a / 4096)) ∧
      (((s.sysPageAlloc (a / 4096)).ideRead (a / 4096)).sysPageMap (a / 4096)).Mapped
      (a / 4096) := by
  generalize hs' : ((s.sysPageAlloc (a / 4096)).ideRead (a / 4096)).sysPageMap (a / 4096) = s'
  have hother : ∀ pn, pn ≠ a / 4096 → s'.uvpt pn = s.uvpt pn := by
    intro pn hpn
    subst hs'
    simp only [sysPageMap, ideRead, sysPageAlloc, Function.update_of_ne hpn]
  have hpage : s'.Mapped (a / 4096) := by
    subst hs'
    simp only [Server.Mapped, sysPageMap, Function.update_self]
    exact has_remap_P
  have hin : ∀ x, x / 4096 = a / 4096 → s'.mem x = s.disk x := by
    intro x hx
    subst hs'
    obtain ⟨h1, h2⟩ := in_page.mpr hx
    exact overwrite_in h1 h2
  have hout : ∀ x, x / 4096 ≠ a / 4096 → s'.mem x = s.mem x := by
    intro x hx
    subst hs'
    have hx' : x < a / 4096 * 4096 ∨ a / 4096 * 4096 + 4096 ≤ x := by omega
    simp only [sysPageMap, ideRead, sysPageAlloc, overwrite_out hx']
  have hdisk : s'.disk = s.disk := by
    subst hs'
    rfl
  refine ⟨⟨?_, hdisk, ?_, ?_, ?_, ?_, ?_⟩, hpage⟩
  · funext x
    by_cases hx : x / 4096 = a / 4096
    · have hxmap : InMap x := (inMap_of_page hx).mpr hmap
      rw [view_of_mapped (by rw [hx]; exact hpage), hin x hx,
        view_of_not_mapped hxmap (by rw [hx]; exact hnot)]
    · have hmapped : s'.Mapped (x / 4096) ↔ s.Mapped (x / 4096) := by
        rw [Server.Mapped, Server.Mapped, hother _ hx]
      simp only [view, hmapped, hdisk, hout x hx]
  · subst hs'
    rfl
  · subst hs'
    rfl
  · subst hs'
    rfl
  · intro pn hpn
    exact hother pn fun h => hnot (h ▸ hpn)
  · intro hc x hxmap hxm hxd
    by_cases hx : x / 4096 = a / 4096
    · rw [hin x hx, hdisk]
    · rw [hout x hx, hdisk]
      simp only [Server.Mapped, Server.Dirty, hother _ hx] at hxm hxd
      exact hc x hxmap hxm hxd

theorem sNblocks_inMap : InMap sNblocks := by decide

/-- While `super` is set and block 1 is not in the cache, every fault leads to another one. -/
theorem bcPgfault_stuck (hsuper : s.super = true) (hnot : ¬ s.Mapped (sNblocks / 4096)) :
    ¬ bcPgfault depth a s = some (u, s') := by
  induction depth generalizing a s' u with
  | zero => exact fail_eq_some
  | succ depth ih =>
    intro h
    obtain ⟨_, _, hreq, h⟩ := bind_eq_some.mp h
    obtain ⟨_, rfl⟩ := require_eq_some.mp hreq
    rw [bind_of_eq get_apply] at h
    obtain ⟨_, _, hwhen, _⟩ := bind_eq_some.mp h
    rw [when_pos hsuper, bind_eq_some] at hwhen
    obtain ⟨_, _, htouch, _⟩ := hwhen
    rw [touchBy, if_pos ⟨sNblocks_inMap, hnot⟩] at htouch
    exact ih htouch

/-- What a fault must do for the accesses that may take it. -/
def FaultSpec (fault : ℕ → FsM Unit) : Prop :=
  ∀ a s u s', InMap a → ¬ s.Mapped (a / 4096) → fault a s = some (u, s') →
    Fills s s' ∧ s'.Mapped (a / 4096)

theorem touchBy_fills {fault : ℕ → FsM Unit} (hf : FaultSpec fault)
    (h : touchBy fault a s = some (u, s')) : Fills s s' ∧ s'.Present a := by
  rw [touchBy] at h
  split at h
  · next hfault =>
    obtain ⟨hfill, hm⟩ := hf a s u s' hfault.1 hfault.2 h
    exact ⟨hfill, fun _ => hm⟩
  · next hno =>
    obtain rfl : s = s' := (Prod.ext_iff.mp (Option.some.inj h)).2
    exact ⟨Fills.refl s, fun hmap => by_contra fun hm => hno ⟨hmap, hm⟩⟩

theorem blockIsFreeBy_fills {fault : ℕ → FsM Unit} (hf : FaultSpec fault)
    {blockno : Word} {r : Bool}
    (h : blockIsFreeBy fault blockno s = some (r, s')) : Fills s s' := by
  obtain ⟨_, _, hget, h⟩ := bind_eq_some.mp h
  cases hget
  split at h
  · cases h
    exact Fills.refl s
  · obtain ⟨_, s1, htouch, h⟩ := bind_eq_some.mp h
    have hfill1 := (touchBy_fills hf htouch).1
    rw [bind_of_eq get_apply] at h
    split at h
    · cases h
      exact hfill1
    · obtain ⟨_, s2, htouch2, h⟩ := bind_eq_some.mp h
      cases h
      exact hfill1.trans (touchBy_fills hf htouch2).1

theorem bcPgfault_fills : FaultSpec (bcPgfault depth) := by
  induction depth with
  | zero => exact fun _ _ _ _ _ _ h => absurd h fail_eq_some
  | succ depth ih =>
    intro a s u s' hmap hnot h
    have hone : s.super = true → s.Mapped (sNblocks / 4096) := fun hsuper =>
      by_contra fun hn => bcPgfault_stuck hsuper hn h
    obtain ⟨_, _, hreq, h⟩ := bind_eq_some.mp h
    obtain ⟨_, rfl⟩ := require_eq_some.mp hreq
    rw [bind_of_eq get_apply] at h
    obtain ⟨_, s1, hwhen, h⟩ := bind_eq_some.mp h
    -- the look at the superblock does not fault
    obtain rfl : s = s1 := by
      rcases when_eq_some.mp hwhen with ⟨hsuper, hwhen⟩ | ⟨_, rfl⟩
      · obtain ⟨_, s2, htouch, hwhen⟩ := bind_eq_some.mp hwhen
        rw [touchBy, if_neg fun hn => hn.2 (hone hsuper)] at htouch
        obtain rfl : s = s2 := (Prod.ext_iff.mp (Option.some.inj htouch)).2
        rw [bind_of_eq get_apply] at hwhen
        exact (require_eq_some.mp hwhen).2
      · rfl
    simp only [bind_eq_some, modify_eq_some, get_eq_some] at h
    obtain ⟨_, _, rfl, _, _, rfl, _, _, rfl, _, _, ⟨rfl, rfl⟩, h⟩ := h
    obtain ⟨hfill, hpage⟩ := fill_page hmap hnot
    rcases when_eq_some.mp h with ⟨_, h⟩ | ⟨_, rfl⟩
    · obtain ⟨_, s2, hfree, h⟩ := bind_eq_some.mp h
      obtain ⟨_, rfl⟩ := require_eq_some.mp h
      have hfill2 := blockIsFreeBy_fills ih hfree
      exact ⟨hfill.trans hfill2, hfill2.mapped hpage⟩
    · exact ⟨hfill, hpage⟩

theorem touch_fills (h : touch a s = some (u, s')) : Fills s s' ∧ s'.Present a :=
  touchBy_fills bcPgfault_fills h

end Faults

section Accesses

variable {s s' : Server} {a n : ℕ} {u : Unit}

theorem touchPages_fills (ha : a % 4096 = 0) (h : touchPages n a s = some (u, s')) :
    Fills s s' ∧ ∀ x, a ≤ x → x < a + n * 4096 → s'.Present x := by
  induction n generalizing a s with
  | zero =>
    obtain ⟨_, rfl⟩ := pure_eq_some.mp h
    exact ⟨Fills.refl s, fun x h1 h2 => by omega⟩
  | succ n ih =>
    obtain ⟨_, s1, htouch, h⟩ := bind_eq_some.mp h
    obtain ⟨hfill, hpresent⟩ := touch_fills htouch
    obtain ⟨hfill', hrest⟩ := ih (by omega) h
    refine ⟨hfill.trans hfill', fun x h1 h2 => ?_⟩
    by_cases hx : x < a + 4096
    · intro hmap
      have hpage : x / 4096 = a / 4096 := by omega
      rw [hpage]
      exact hfill'.present hpresent ((inMap_of_page hpage).mp hmap)
    · exact hrest x (by omega) (by omega)

theorem touchRange_fills (h : touchRange a n s = some (u, s')) :
    Fills s s' ∧ ∀ x, a ≤ x → x < a + n → s'.Present x := by
  rw [touchRange] at h
  split at h
  · cases h
    exact ⟨Fills.refl s, fun x h1 h2 => by omega⟩
  · obtain ⟨hfill, hpages⟩ := touchPages_fills (by omega) h
    refine ⟨hfill, fun x h1 h2 => hpages x (by omega) ?_⟩
    omega

theorem present_of_page {x : ℕ} (h : x / 4096 = a / 4096) (ha : s.Present a) : s.Present x := by
  intro hmap
  rw [h]
  exact ha ((inMap_of_page h).mp hmap)

theorem touch_of_present (h : s.Present a) : touch a s = some ((), s) :=
  if_neg fun hn => hn.2 (h hn.1)

theorem touchPages_of_present (ha : a % 4096 = 0)
    (h : ∀ x, a ≤ x → x < a + n * 4096 → s.Present x) : touchPages n a s = some ((), s) := by
  induction n generalizing a with
  | zero => rfl
  | succ n ih =>
    rw [touchPages, bind_of_eq (touch_of_present (h a (by omega) (by omega)))]
    exact ih (by omega) fun x h1 h2 => h x (by omega) (by omega)

theorem touchRange_of_present (h : ∀ x, a ≤ x → x < a + n → s.Present x) :
    touchRange a n s = some ((), s) := by
  rw [touchRange]
  split
  · rfl
  · refine touchPages_of_present (by omega) fun x h1 h2 => ?_
    by_cases hx : x < a
    · exact present_of_page (by omega) (h a (by omega) (by omega))
    · by_cases hx' : x < a + n
      · exact h x (by omega) hx'
      · have hlast : x / 4096 = (a + n - 1) / 4096 := by
          omega
        exact present_of_page hlast (h (a + n - 1) (by omega) (by omega))

theorem loadw_of_present (h : ∀ x, a ≤ x → x < a + 4 → s.Present x) :
    loadw a s = some (s.view.word a, s) := by
  rw [loadw, bind_of_eq (touchRange_of_present h)]
  show some (s.mem.word a, s) = _
  rw [word_congr fun x h1 h2 => (view_of_present (h x h1 h2)).symm]

theorem loadb_cases {b : Byte} (h : loadb a s = some (b, s')) : Fills s s' ∧ b = s.view a := by
  obtain ⟨_, s1, htouch, h⟩ := bind_eq_some.mp h
  obtain ⟨_, _, ⟨rfl, rfl⟩, rfl, rfl⟩ := h
  obtain ⟨hfill, hpresent⟩ := touch_fills htouch
  refine ⟨hfill, ?_⟩
  rw [← hfill.view, view_of_present hpresent]

theorem loadw_cases {w : Word} (h : loadw a s = some (w, s')) :
    Fills s s' ∧ w = s.view.word a := by
  obtain ⟨_, s1, htouch, h⟩ := bind_eq_some.mp h
  obtain ⟨_, _, ⟨rfl, rfl⟩, rfl, rfl⟩ := h
  obtain ⟨hfill, hpresent⟩ := touchRange_fills htouch
  refine ⟨hfill, word_congr fun x h1 h2 => ?_⟩
  rw [← hfill.view, view_of_present (hpresent x h1 h2)]

/-- The server now sees `v`, and nothing has left the cache. -/
structure Shows (v : ByteMem) (s s' : Server) : Prop where
  view : s'.view = v
  super : s'.super = s.super
  bitmap : s'.bitmap = s.bitmap
  moves : s'.moves = s.moves
  mapped : ∀ pn, s.Mapped pn → s'.Mapped pn
  coherent : s.Coherent → s'.Coherent

theorem Shows.trans {v v' : ByteMem} {s'' : Server} (h : Shows v s s') (h' : Shows v' s' s'') :
    Shows v' s s'' where
  view := h'.view
  super := h'.super.trans h.super
  bitmap := h'.bitmap.trans h.bitmap
  moves := h'.moves.trans h.moves
  mapped pn hm := h'.mapped pn (h.mapped pn hm)
  coherent hc := h'.coherent (h.coherent hc)

theorem Fills.shows (h : Fills s s') : Shows s.view s s' :=
  ⟨h.view, h.super, h.bitmap, h.moves, fun _ => h.mapped, h.coherent⟩

theorem Shows.refl (s : Server) : Shows s.view s s := (Fills.refl s).shows

theorem put_shows {g : ℕ → Byte} (hpresent : ∀ x, a ≤ x → x < a + n → s.Present x) :
    Shows (s.view.overwrite a n g) s (s.put a n g) := by
  have hmapped : ∀ pn, (s.put a n g).Mapped pn ↔ s.Mapped pn := by
    intro pn
    simp only [Server.Mapped, put]
    split
    · exact has_or_D
    · rfl
  refine ⟨?_, rfl, rfl, rfl, fun pn => (hmapped pn).mpr, ?_⟩
  · funext x
    by_cases hx : a ≤ x ∧ x < a + n
    · have hp : (s.put a n g).Present x := fun hmap => (hmapped _).mpr (hpresent x hx.1 hx.2 hmap)
      rw [view_of_present hp, overwrite_in hx.1 hx.2]
      exact overwrite_in hx.1 hx.2
    · have hx' : x < a ∨ a + n ≤ x := by omega
      rw [overwrite_out hx']
      simp only [view, hmapped]
      rw [show (s.put a n g).mem x = s.mem x from overwrite_out hx']
      rfl
  · intro hc x hmap hm hd
    have hclean : ¬ (0 < n ∧ a / 4096 ≤ x / 4096 ∧ x / 4096 * 4096 < a + n) := by
      intro hn
      simp only [Server.Dirty, put, if_pos hn] at hd
      exact hd has_or_D_D
    have hx : x < a ∨ a + n ≤ x := by omega
    rw [show (s.put a n g).mem x = s.mem x from overwrite_out hx]
    simp only [Server.Dirty, put, if_neg hclean] at hd
    exact hc x hmap ((hmapped _).mp hm) hd

theorem store_shows {g : ℕ → Byte} (h : store a n g s = some (u, s')) :
    Shows (s.view.overwrite a n g) s s' := by
  obtain ⟨_, s1, htouch, h⟩ := bind_eq_some.mp h
  cases h
  obtain ⟨hfill, hpresent⟩ := touchRange_fills htouch
  have hput := put_shows (g := g) hpresent
  rw [hfill.view] at hput
  exact hfill.shows.trans hput

theorem storew_shows {w : Word} (h : storew a w s = some (u, s')) :
    Shows (s.view.putWord a w) s s' := store_shows h

theorem memmove_shows {dst src : ℕ} (h : memmove dst src n s = some (u, s')) :
    Shows (s.view.overwrite dst n fun x => s.view (src + (x - dst)))
      { s with moves := s.moves ++ [⟨dst, src, n⟩] } s' := by
  simp only [memmove, bind_eq_some, modify_eq_some, get_eq_some] at h
  obtain ⟨_, _, rfl, _, s1, htouch, _, _, ⟨rfl, rfl⟩, h⟩ := h
  obtain ⟨hfill, hpresent⟩ := touchRange_fills htouch
  have hstore := hfill.shows.trans (store_shows h)
  have hbytes : s1.view.overwrite dst n (fun x => s1.mem (src + (x - dst))) =
      s.view.overwrite dst n fun x => s.view (src + (x - dst)) := by
    funext x
    by_cases hx : dst ≤ x ∧ x < dst + n
    · rw [overwrite_in hx.1 hx.2, overwrite_in hx.1 hx.2,
        ← view_of_present (hpresent _ (by omega) (by omega)), hfill.view]
      rfl
    · have hx' : x < dst ∨ dst + n ≤ x := by omega
      rw [overwrite_out hx', overwrite_out hx', hfill.view]
      rfl
  rw [hbytes] at hstore
  exact hstore

theorem diskaddr_cases {blockno : Word} {r : ℕ} (h : diskaddr blockno s = some (r, s')) :
    Fills s s' ∧ r = blkaddr blockno ∧ blockno ≠ 0#32 ∧
      (s.super = true → blockno < s.view.word sNblocks) := by
  simp only [diskaddr, bind_eq_some, require_eq_some, get_eq_some, pure_eq_some] at h
  obtain ⟨_, _, ⟨hzero, rfl⟩, _, _, ⟨rfl, rfl⟩, _, s1, hwhen, rfl, rfl⟩ := h
  rcases when_eq_some.mp hwhen with ⟨_, hwhen⟩ | ⟨hno, rfl⟩
  · obtain ⟨w, s2, hload, hwhen⟩ := bind_eq_some.mp hwhen
    obtain ⟨hlt, rfl⟩ := require_eq_some.mp hwhen
    obtain ⟨hfill, rfl⟩ := loadw_cases hload
    exact ⟨hfill, rfl, hzero, fun _ => hlt⟩
  · exact ⟨Fills.refl s, rfl, hzero, fun hsuper => absurd hsuper hno⟩

/-- `flush_block` changes nothing that is seen; if the cache was coherent, the block is on the
    disk afterwards. -/
theorem flushBlock_shows (h : flushBlock a s = some (u, s')) :
    InMap a ∧ Shows s.view s s' ∧ (∀ x, x / 4096 ≠ a / 4096 → s'.disk x = s.disk x) ∧
      (s.Coherent → ∀ x, x / 4096 = a / 4096 → s'.disk x = s.view x) := by
  simp only [flushBlock, bind_eq_some, require_eq_some, get_eq_some] at h
  obtain ⟨_, _, ⟨hmap, rfl⟩, _, _, ⟨rfl, rfl⟩, h⟩ := h
  rcases when_eq_some.mp h with ⟨⟨hm, _⟩, h⟩ | ⟨hclean, rfl⟩
  · obtain ⟨_, _, rfl, rfl⟩ := h
    have hother : ∀ pn, pn ≠ a / 4096 →
        ((s.ideWrite (a / 4096)).sysPageMap (a / 4096)).uvpt pn = s.uvpt pn := by
      intro pn hpn
      exact Function.update_of_ne hpn ..
    have hpage : ((s.ideWrite (a / 4096)).sysPageMap (a / 4096)).Mapped (a / 4096) := by
      simp only [Server.Mapped, sysPageMap, Function.update_self]
      exact has_remap_P
    have hmapped : ∀ pn, ((s.ideWrite (a / 4096)).sysPageMap (a / 4096)).Mapped pn ↔
        s.Mapped pn := by
      intro pn
      by_cases hpn : pn = a / 4096
      · rw [hpn]
        exact iff_of_true hpage hm
      · rw [Server.Mapped, Server.Mapped, hother pn hpn]
    have hin : ∀ x, x / 4096 = a / 4096 → (s.ideWrite (a / 4096)).disk x = s.mem x := by
      intro x hx
      obtain ⟨h1, h2⟩ := in_page.mpr hx
      exact overwrite_in h1 h2
    have hout : ∀ x, x / 4096 ≠ a / 4096 → (s.ideWrite (a / 4096)).disk x = s.disk x := by
      intro x hx
      have hx' : x < a / 4096 * 4096 ∨ a / 4096 * 4096 + 4096 ≤ x := by omega
      simp only [ideWrite, overwrite_out hx']
    refine ⟨hmap, ⟨?_, rfl, rfl, rfl, fun pn => (hmapped pn).mpr, ?_⟩, hout, ?_⟩
    · funext x
      by_cases hx : x / 4096 = a / 4096
      · rw [view_of_mapped (by rw [hx]; exact hpage), view_of_mapped (by rw [hx]; exact hm)]
        rfl
      · simp only [view, hmapped]
        rw [show ((s.ideWrite (a / 4096)).sysPageMap (a / 4096)).disk x = s.disk x from hout x hx]
        rfl
    · intro hc x hxmap hxm hxd
      by_cases hx : x / 4096 = a / 4096
      · exact (hin x hx).symm
      · simp only [Server.Mapped, Server.Dirty, hother _ hx] at hxm hxd
        exact (hc x hxmap hxm hxd).trans (hout x hx).symm
    · intro _ x hx
      rw [view_of_mapped (by rw [hx]; exact hm)]
      exact hin x hx
  · refine ⟨hmap, Shows.refl s, fun _ _ => rfl, fun hc x hx => ?_⟩
    have hxmap : InMap x := (inMap_of_page hx).mpr hmap
    by_cases hm : s.Mapped (x / 4096)
    · rw [view_of_mapped hm]
      exact (hc x hxmap hm fun hd => hclean (hx ▸ ⟨hm, hd⟩)).symm
    · rw [view_of_not_mapped hxmap hm]

end Accesses

/-! ### `fs_sync` -/

/-- The block of an address of the disk map. -/
def blockOf (a : ℕ) : ℕ := (a - diskmap) / blksize

theorem blkaddr_eq {b : Word} (h : b.toNat < 2 ^ 20 - 2 ^ 16) :
    blkaddr b = diskmap + b.toNat * blksize := by
  simp only [blkaddr, diskmap, blksize, BitVec.toNat_add, BitVec.toNat_mul, toNat_ofNat]
  omega

theorem page_of_block {x b : ℕ} (hx : diskmap ≤ x) :
    blockOf x = b ↔ x / 4096 = (diskmap + b * blksize) / 4096 := by
  simp only [blockOf, diskmap, blksize] at *
  omega

section Sync

variable {s s' s₀ : Server}

/-- What holds after some iterations of `fs_sync`: the blocks up to `i` are on the disk. -/
structure Syncing (v : ByteMem) (i : ℕ) (s : Server) : Prop where
  view : s.view = v
  coherent : s.Coherent
  le : i ≤ disksize / blksize
  synced : ∀ x, InMap x → 1 ≤ blockOf x → blockOf x < i → s.disk x = v x

variable {v : ByteMem} {i : ℕ} {u : Unit}

theorem Syncing.next (h : Syncing v i s)
    (hstep : fsSyncStep i s = some (none, s')) : Syncing v (i + 1) s' := by
  obtain ⟨w, s1, hload, hstep⟩ := bind_eq_some.mp hstep
  obtain ⟨hfill1, rfl⟩ := loadw_cases hload
  split at hstep
  · simp only [bind_eq_some, pure_eq_some] at hstep
    obtain ⟨addr, s2, haddr, _, s3, hflush, _, rfl⟩ := hstep
    obtain ⟨hfill2, rfl, _, _⟩ := diskaddr_cases haddr
    obtain ⟨hmap, hshows, hout, hin⟩ := flushBlock_shows hflush
    have hfill := hfill1.trans hfill2
    have hle := h.le
    have hnat : (BitVec.ofNat 32 i).toNat = i := by
      rw [toNat_ofNat, Nat.mod_eq_of_lt (by simp only [disksize, blksize] at hle; omega)]
    have haddr : blkaddr (BitVec.ofNat 32 i) = diskmap + i * blksize := by
      rw [blkaddr_eq (by rw [hnat]; simp only [disksize, blksize] at hle; omega), hnat]
    rw [haddr] at hmap hin hout
    refine ⟨?_, hshows.coherent (hfill.coherent h.coherent), ?_, fun x hx h1 hlt => ?_⟩
    · rw [hshows.view, hfill.view, h.view]
    · simp only [InMap, diskmap, blksize, disksize] at hmap ⊢
      omega
    · by_cases hxi : blockOf x = i
      · rw [hin (hfill.coherent h.coherent) x ((page_of_block hx.1).mp hxi), hfill.view, h.view]
      · have hpage : x / 4096 ≠ (diskmap + i * blksize) / 4096 := fun hp =>
          hxi ((page_of_block hx.1).mpr hp)
        rw [hout x hpage, hfill.disk]
        exact h.synced x hx h1 (by omega)
  · obtain ⟨hr, _⟩ := pure_eq_some.mp hstep
    cases hr

theorem Syncing.done (h : Syncing v i s)
    (hstep : fsSyncStep i s = some (some u, s')) :
    ¬ BitVec.ofNat 32 i < v.word sNblocks ∧ Syncing v i s' := by
  obtain ⟨w, s1, hload, hstep⟩ := bind_eq_some.mp hstep
  obtain ⟨hfill1, rfl⟩ := loadw_cases hload
  split at hstep
  · simp only [bind_eq_some, pure_eq_some] at hstep
    obtain ⟨_, _, _, _, _, _, hr, _⟩ := hstep
    cases hr
  · next hlt =>
    cases hstep
    rw [h.view] at hlt
    refine ⟨hlt, hfill1.view.trans h.view, hfill1.coherent h.coherent, h.le, fun x hx h1 h2 => ?_⟩
    rw [hfill1.disk]
    exact h.synced x hx h1 h2

/-- After `fs_sync` every block of the file system but the first is on the disk. -/
theorem fsSync_synced (hc : s.Coherent) (h : fsSync s = some (u, s')) :
    s'.view = s.view ∧ s'.Coherent ∧ ∀ x, InMap x → 1 ≤ blockOf x →
      blockOf x < (s.view.word sNblocks).toNat → s'.disk x = s.view x := by
  obtain ⟨r, s1, hloop, h⟩ := bind_eq_some.mp h
  have h0 : Syncing s.view 1 s := ⟨rfl, hc, by decide, fun x _ h1 h2 => by omega⟩
  rcases search_rule (fun i s1 => Syncing s.view i s1)
      (fun _ s1 => ∃ i, ¬ BitVec.ofNat 32 i < s.view.word sNblocks ∧ Syncing s.view i s1)
      (fun i _ _ _ hI hstep => hI.next hstep) (fun i _ _ _ _ hI hstep => ⟨i, hI.done hstep⟩)
        hloop h0 with
    ⟨rfl, _⟩ | ⟨_, rfl, i, hlt, hsync⟩
  · exact absurd h fail_eq_some
  · cases h
    refine ⟨hsync.view, hsync.coherent, fun x hx h1 hx' => hsync.synced x hx h1 ?_⟩
    have hle := hsync.le
    simp only [disksize, blksize] at hle
    rw [BitVec.not_lt, BitVec.le_def, toNat_ofNat, Nat.mod_eq_of_lt (by omega)] at hlt
    omega

/-- The superblock is in the cache, and the file system fits into the disk map. -/
structure Ready (s : Server) : Prop where
  super : s.super = true
  mapped : s.Mapped (sNblocks / 4096)
  nblocks_le : (s.view.word sNblocks).toNat ≤ disksize / blksize

theorem Ready.loadw (h : Ready s) : loadw sNblocks s = some (s.view.word sNblocks, s) := by
  refine loadw_of_present fun x h1 h2 _ => ?_
  rw [show x / 4096 = sNblocks / 4096 by simp only [sNblocks, diskmap, blksize] at *; omega]
  exact h.mapped

theorem Ready.of_shows (h : Ready s) (hshows : Shows s.view s s') : Ready s' :=
  ⟨hshows.super.trans h.super, hshows.mapped _ h.mapped, by rw [hshows.view]; exact h.nblocks_le⟩

theorem Ready.diskaddr (h : Ready s) {b : Word} (h0 : b ≠ 0#32) (hlt : b < s.view.word sNblocks) :
    diskaddr b s = some (blkaddr b, s) := by
  rw [Fs.diskaddr, bind_of_eq (require_pos h0), bind_of_eq get_apply]
  rw [bind_of_eq (a := ()) (t := s)]
  · rfl
  · rw [when_pos h.super, bind_of_eq h.loadw]
    exact require_pos hlt

theorem flushBlock_total {a : ℕ} (h : InMap a) : ∃ s', flushBlock a s = some ((), s') := by
  rw [flushBlock, bind_of_eq (require_pos h), bind_of_eq get_apply]
  by_cases hd : s.Mapped (a / 4096) ∧ s.Dirty (a / 4096)
  · exact ⟨_, when_pos hd⟩
  · exact ⟨s, when_neg hd⟩

theorem Ready.fsSync (h : Ready s) : ∃ s', fsSync s = some ((), s') := by
  have hbody : ∀ i t, (1 ≤ i ∧ i ≤ disksize / blksize ∧ Ready t) →
      (∃ t', fsSyncStep i t = some (none, t') ∧
        (1 ≤ i + 1 ∧ i + 1 ≤ disksize / blksize ∧ Ready t')) ∨
      ∃ b t', fsSyncStep i t = some (some b, t') ∧ True := by
    rintro i t ⟨h1, hle, ht⟩
    have hn := ht.nblocks_le
    have hnat : (BitVec.ofNat 32 i).toNat = i := by
      rw [toNat_ofNat, Nat.mod_eq_of_lt (by simp only [disksize, blksize] at hle; omega)]
    rw [fsSyncStep, bind_of_eq ht.loadw]
    split
    · next hlt =>
      have h0 : BitVec.ofNat 32 i ≠ 0#32 := fun h0 => by
        rw [h0] at hnat
        simp at hnat
        omega
      have hi : i < disksize / blksize := by
        rw [BitVec.lt_def, hnat] at hlt
        omega
      have hmap : InMap (blkaddr (BitVec.ofNat 32 i)) := by
        rw [blkaddr_eq (by rw [hnat]; simp only [disksize, blksize] at hi; omega), hnat]
        simp only [InMap, diskmap, disksize, blksize] at hi ⊢
        omega
      obtain ⟨t', hflush⟩ := flushBlock_total (s := t) hmap
      rw [bind_of_eq (ht.diskaddr h0 hlt), bind_of_eq hflush]
      obtain ⟨_, hshows, _, _⟩ := flushBlock_shows hflush
      exact Or.inl ⟨t', rfl, by omega, hi, ht.of_shows hshows⟩
    · exact Or.inr ⟨(), t, rfl, trivial⟩
  rcases search_total _ (fun _ _ => True) hbody (n := 2 ^ 32) (i := 1) (s := s)
      ⟨le_refl 1, by decide, h⟩ with ⟨s', _, _, hle, _⟩ | ⟨b, s', hs', _⟩
  · simp only [disksize, blksize] at hle
    omega
  · rw [Fs.fsSync, bind_of_eq hs']
    exact ⟨s', rfl⟩

end Sync

/-! ### Runs -/

/-- What the server does to the disk map. -/
inductive CacheOp
  | load (a : ℕ)
  | store (a : ℕ) (b : Byte)
  | flush (a : ℕ)
  | sync
  /-- `super = diskaddr(1)`. -/
  | setSuper
  /-- `bitmap = diskaddr(2)`. -/
  | setBitmap
  deriving DecidableEq

/-- The operation, and the byte that a load returns. -/
def CacheOp.run : CacheOp → FsM (Option Byte)
  | .load a => do
    Proc.require (InMap a)
    pure (some (← loadb a))
  | .store a b => do
    Proc.require (InMap a)
    storeb a b
    pure none
  | .flush a => do
    flushBlock a
    pure none
  | .sync => do
    fsSync
    pure none
  | .setSuper => do
    let _ ← diskaddr 1#32
    modify fun s => { s with super := true }
    pure none
  | .setBitmap => do
    let _ ← diskaddr 2#32
    modify fun s => { s with bitmap := true }
    pure none

def CacheStep (s : Server) (op : CacheOp) (s' : Server) : Prop :=
  ∃ r, op.run s = some (r, s')

section Runs

variable {s s' s₀ : Server} {op : CacheOp} {ops : List CacheOp}

/-- One operation: the cache stays coherent, and only a store changes what is seen. -/
theorem cacheStep_coherent (hc : s.Coherent) (h : CacheStep s op s') :
    s'.Coherent ∧ ∀ a, s'.view a ≠ s.view a → ∃ b, op = .store a b := by
  obtain ⟨r, h⟩ := h
  cases op with
  | load a =>
    simp only [CacheOp.run, bind_eq_some, require_eq_some, pure_eq_some] at h
    obtain ⟨_, _, ⟨_, rfl⟩, _, _, hload, _, rfl⟩ := h
    obtain ⟨hfill, _⟩ := loadb_cases hload
    exact ⟨hfill.coherent hc, fun a ha => absurd (congrFun hfill.view a) ha⟩
  | store a b =>
    simp only [CacheOp.run, bind_eq_some, require_eq_some, pure_eq_some] at h
    obtain ⟨_, _, ⟨_, rfl⟩, _, _, hstore, _, rfl⟩ := h
    have hshows := store_shows hstore
    refine ⟨hshows.coherent hc, fun x hx => ?_⟩
    by_cases hxa : x = a
    · exact ⟨b, by rw [hxa]⟩
    · rw [hshows.view, overwrite_out (by omega)] at hx
      exact absurd rfl hx
  | flush a =>
    simp only [CacheOp.run, bind_eq_some, pure_eq_some] at h
    obtain ⟨_, _, hflush, _, rfl⟩ := h
    obtain ⟨_, hshows, _, _⟩ := flushBlock_shows hflush
    exact ⟨hshows.coherent hc, fun a ha => absurd (congrFun hshows.view a) ha⟩
  | sync =>
    simp only [CacheOp.run, bind_eq_some, pure_eq_some] at h
    obtain ⟨_, _, hsync, _, rfl⟩ := h
    obtain ⟨hview, hcoherent, _⟩ := fsSync_synced hc hsync
    exact ⟨hcoherent, fun a ha => absurd (congrFun hview a) ha⟩
  | setSuper =>
    simp only [CacheOp.run, bind_eq_some, modify_eq_some, pure_eq_some] at h
    obtain ⟨_, _, haddr, _, _, rfl, _, rfl⟩ := h
    obtain ⟨hfill, _⟩ := diskaddr_cases haddr
    exact ⟨hfill.coherent hc, fun a ha => absurd (congrFun hfill.view a) ha⟩
  | setBitmap =>
    simp only [CacheOp.run, bind_eq_some, modify_eq_some, pure_eq_some] at h
    obtain ⟨_, _, haddr, _, _, rfl, _, rfl⟩ := h
    obtain ⟨hfill, _⟩ := diskaddr_cases haddr
    exact ⟨hfill.coherent hc, fun a ha => absurd (congrFun hfill.view a) ha⟩

end Runs

/-- **The block cache is coherent.** In every state a run of accesses and flushes leads to: a
    block that is not in the cache, or there and clean, is seen as it is on the disk; a load
    returns what is seen; what is seen changes only by a store to that address; and after
    `fs_sync`, which returns, the blocks from 1 to `s_nblocks - 1` are on the disk as they are
    seen. -/
theorem block_cache_coherent {s₀ s : Server} {ops : List CacheOp} (h0 : s₀.Coherent)
    (hrun : Run CacheStep s₀ ops s) :
    (∀ a, InMap a → ¬ s.Mapped (a / 4096) ∨ ¬ s.Dirty (a / 4096) → s.view a = s.disk a) ∧
    (∀ a r s', (CacheOp.load a).run s = some (r, s') → r = some (s.view a)) ∧
    (∀ op s', CacheStep s op s' → ∀ a, s'.view a ≠ s.view a → ∃ b, op = .store a b) ∧
    (Ready s → ∃ s', CacheStep s .sync s') ∧
    ∀ s', CacheStep s .sync s' → ∀ a, InMap a → 1 ≤ blockOf a →
      blockOf a < (s'.view.word sNblocks).toNat → s'.disk a = s'.view a := by
  have hc : s.Coherent := hrun.invariant Server.Coherent h0
    fun _ _ _ hc hs => (cacheStep_coherent hc hs).1
  refine ⟨fun a hmap hclean => ?_, fun a r s' h => ?_, fun op s' hs =>
    (cacheStep_coherent hc hs).2, fun hready => ?_, fun s' hs a hmap h1 hlt => ?_⟩
  · by_cases hm : s.Mapped (a / 4096)
    · rw [view_of_mapped hm]
      exact hc a hmap hm (hclean.resolve_left (not_not_intro hm))
    · exact view_of_not_mapped hmap hm
  · simp only [CacheOp.run, bind_eq_some, require_eq_some, pure_eq_some] at h
    obtain ⟨_, _, ⟨_, rfl⟩, _, _, hload, rfl, _⟩ := h
    rw [(loadb_cases hload).2]
  · obtain ⟨s', hs'⟩ := hready.fsSync
    exact ⟨s', none, by rw [CacheOp.run, bind_of_eq hs']; rfl⟩
  · obtain ⟨r, h⟩ := hs
    simp only [CacheOp.run, bind_eq_some, pure_eq_some] at h
    obtain ⟨_, _, hsync, _, rfl⟩ := h
    obtain ⟨hview, _, hsynced⟩ := fsSync_synced hc hsync
    rw [hview] at hlt ⊢
    exact hsynced a hmap h1 hlt

/-- A disk with three blocks, all zero but for the number of blocks, and an empty cache. -/
def emptyCache : Server where
  mem _ := 0#8
  uvpt _ := 0#32
  disk a := if a = sNblocks then 3#8 else 0#8
  super := false
  bitmap := false
  moves := []

theorem emptyCache_coherent : emptyCache.Coherent := fun _ _ hm => absurd hm (by
  simp only [Server.Mapped, emptyCache]
  decide)

/-- A byte of block 1 is stored; `fs_sync` brings it to the disk. -/
theorem block_cache_coherent_store : ∃ s s' : Server,
    Run CacheStep emptyCache [.load sNblocks, .setSuper, .store (sNblocks + 100) 7#8] s ∧
      CacheStep s .sync s' ∧ s.disk (sNblocks + 100) = 0#8 ∧ s'.disk (sNblocks + 100) = 7#8 := by
  obtain ⟨p₁, h₁, p₂, h₂, p₃, h₃, p₄, h₄, hdisk, hview, hn⟩ :
      ∃ p₁ ∈ (CacheOp.load sNblocks).run emptyCache, ∃ p₂ ∈ CacheOp.setSuper.run p₁.2,
        ∃ p₃ ∈ (CacheOp.store (sNblocks + 100) 7#8).run p₂.2, ∃ q ∈ CacheOp.sync.run p₃.2,
          p₃.2.disk (sNblocks + 100) = 0#8 ∧ q.2.view (sNblocks + 100) = 7#8 ∧
          (q.2.view.word sNblocks).toNat = 3 := by
    decide
  have hrun :
      Run CacheStep emptyCache [.load sNblocks, .setSuper, .store (sNblocks + 100) 7#8] p₃.2 :=
    .snoc (.snoc (.snoc (.nil _) ⟨_, h₁⟩) ⟨_, h₂⟩) ⟨_, h₃⟩
  obtain ⟨_, _, _, _, hsync⟩ := block_cache_coherent emptyCache_coherent hrun
  have hstep : CacheStep p₃.2 .sync p₄.2 := ⟨p₄.1, h₄⟩
  refine ⟨p₃.2, p₄.2, hrun, hstep, hdisk, ?_⟩
  rw [hsync p₄.2 hstep (sNblocks + 100) (by decide) (by decide) (by rw [hn]; decide), hview]

end LinuxStudy.Fs
