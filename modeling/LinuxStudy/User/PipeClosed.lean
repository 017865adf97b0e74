import Mathlib.Data.Finset.Card
import LinuxStudy.User.PipeRefs

/-!
# Is the other end of the pipe closed?

`_pipeisclosed` takes the other end for closed when the Fd page has as many references as the page
of the pipe. In every environment that runs, each Fd page of a pipe comes with the page of the
pipe, so that page has at least as many references as both Fd pages together; a child in the
making, to which `fork` has copied a Fd page but not yet the page of the pipe, breaks this.
-/

namespace LinuxStudy.User

open Function (update_of_ne update_self update)

variable {E : Type*} [DecidableEq E] [Fintype E] {w : World E} {e d : E}

/-- What an environment that asks knows. -/
def World.CheckOk (w : World E) (e : E) : Check → Prop
  | .idle => True
  | .gotN i _ => ∃ q p b, w.Holder e i q p b
  | .gotFd i _ n => ∃ q p b, w.Holder e i q p b ∧ (w.still e → n = w.pageref q)
  | .gotP i _ n => ∃ q p b, w.Holder e i q p b ∧ (w.still e → n = w.pageref p)
  | .compared i _ ret => ∃ q p b, w.Holder e i q p b ∧
      (ret = true → w.clean e → w.NoOther p b)

omit [DecidableEq E] in
theorem World.Keeps.checkOk {w' : World E} {c : Check} (h : w.Keeps w' d)
    (hpaired : w.status d = .live → w.Paired d) (hstatus : w.status d = .live → w'.status d = .live)
    (hc : w.CheckOk d c) : w'.CheckOk d c := by
  have hold : ∀ {i q p b}, w.Holder d i q p b → w'.Holder d i q p b := fun hh =>
    ⟨hstatus hh.live, (h.maps _).trans hh.fd, (h.role _ _ hh.fd).trans hh.role⟩
  have hcount : ∀ {n q}, (w.still d → n = w.pageref q) → w'.still d → n = w'.pageref q := by
    intro n q hn hs
    obtain ⟨hs, hmaps⟩ := h.still hs
    rw [hn hs, World.pageref, World.pageref, hmaps]
  cases c with
  | idle => trivial
  | gotN i n =>
    obtain ⟨q, p, b, hh⟩ := hc
    exact ⟨q, p, b, hold hh⟩
  | gotFd i n m | gotP i n m =>
    obtain ⟨q, p, b, hh, hn⟩ := hc
    exact ⟨q, p, b, hold hh, hcount hn⟩
  | compared i n ret =>
    obtain ⟨q, p, b, hh, hn⟩ := hc
    refine ⟨q, p, b, hold hh, fun hret hclean => ?_⟩
    exact h.other _ p b (hpaired hh.live i q p b hh.fd hh.role) (hn hret (h.clean hclean))

structure WorldInv (w : World E) : Prop where
  free : ∀ e x, w.status e = .free → w.maps (e, x) = none
  quiet : ∀ e, w.status e ≠ .live → w.act e = .idle ∧ w.check e = .idle
  single : ∀ e, w.check e = .idle ∨ w.act e = .idle
  ends : ∀ x q p b, w.maps x = some q → w.role q = .pipeEnd p b → x.2.1 = .fd
  paired : ∀ e, w.status e = .live → w.Paired e
  act : ∀ e, w.ActOk e (w.act e)
  check : ∀ e, w.CheckOk e (w.check e)

namespace WorldInv

open World

/-- **Counting.** Where every Fd page of the pipe comes with a data page, equal counts leave no
    reference to the other end. -/
theorem noOther_of_count (hw : WorldInv w) (hcard : Fintype.card E ≤ 1024) {i : FdNum} {q p : ℕ}
    {b : Bool} (hold : w.Holder e i q p b) (hhalf : w.NoHalf p)
    (heq : w.pageref q = w.pageref p) : w.NoOther p b := by
  intro y q' hy hr
  have hqq : q ≠ q' := by
    rintro rfl
    have := (Role.pipeEnd.inj (hold.role.symm.trans hr)).2
    cases b <;> cases this
  -- the data page beside a Fd page of the pipe
  have hdata : ∀ x r b', w.maps x = some r → w.role r = .pipeEnd p b' →
      x.2.1 = .fd ∧ w.maps (x.1, .data, x.2.2) = some p := by
    rintro ⟨d, k, j⟩ r b' hx hr'
    obtain rfl : k = .fd := hw.ends _ _ _ _ hx hr'
    refine ⟨rfl, ?_⟩
    cases hst : w.status d with
    | free =>
      rw [hw.free d _ hst] at hx
      cases hx
    | building => exact absurd hr' (hhalf d j r b' hst hx)
    | live => exact hw.paired d hst j r p b' hx hr'
  let S : ℕ → Finset (Place E) := fun r => Finset.univ.filter fun x => w.maps x = some r
  have hdisj : Disjoint (S q) (S q') := by
    rw [Finset.disjoint_filter]
    intro x _ hx hx'
    exact hqq (Option.some.inj (hx.symm.trans hx'))
  have hends : ∀ x ∈ S q ∪ S q', x.2.1 = .fd ∧ w.maps (x.1, .data, x.2.2) = some p := by
    intro x hx
    rcases Finset.mem_union.mp hx with hx | hx
    · exact hdata x q b (by simpa [S] using hx) hold.role
    · exact hdata x q' (!b) (by simpa [S] using hx) hr
  have hle : (S q ∪ S q').card ≤ (S p).card := by
    refine Finset.card_le_card_of_injOn (fun x => (x.1, Area.data, x.2.2)) ?_ ?_
    · intro x hx
      simpa [S] using (hends x hx).2
    · rintro ⟨d, k, j⟩ hx ⟨d', k', j'⟩ hx' h
      obtain rfl : k = .fd := (hends _ hx).1
      obtain rfl : k' = .fd := (hends _ hx').1
      simpa using h
  rw [Finset.card_union_of_disjoint hdisj] at hle
  have hq : 0 < (S q).card := RefCount.count_pos hold.fd
  have hq' : 0 < (S q').card := RefCount.count_pos hy
  have hp : (S p).card ≤ 65536 := by
    refine (Finset.card_le_univ _).trans ?_
    rw [Fintype.card_prod, Fintype.card_prod, Fintype.card_fin]
    rw [show Fintype.card Area = 2 from rfl]
    omega
  change (S q).card % 2 ^ 16 = (S p).card % 2 ^ 16 at heq
  omega

omit [DecidableEq E] in
theorem live_of_act (hw : WorldInv w) (h : w.act e ≠ .idle) : w.status e = .live := by
  by_contra hlive
  exact h (hw.quiet e hlive).1

/-- The invariant for one environment. -/
structure Local (w : World E) (e : E) : Prop where
  free : w.status e = .free → ∀ x, w.maps (e, x) = none
  quiet : w.status e ≠ .live → w.act e = .idle ∧ w.check e = .idle
  single : w.check e = .idle ∨ w.act e = .idle
  ends : ∀ x q p b, w.maps (e, x) = some q → w.role q = .pipeEnd p b → x.1 = .fd
  paired : w.status e = .live → w.Paired e
  act : w.ActOk e (w.act e)
  check : w.CheckOk e (w.check e)

omit [DecidableEq E] in
theorem at_env (hw : WorldInv w) (e : E) : Local w e where
  free h x := hw.free e x h
  quiet := hw.quiet e
  single := hw.single e
  ends x := hw.ends (e, x)
  paired := hw.paired e
  act := hw.act e
  check := hw.check e

omit [DecidableEq E] in
theorem of_local (h : ∀ e, Local w e) : WorldInv w where
  free e x hf := (h e).free hf x
  quiet e := (h e).quiet
  single e := (h e).single
  ends := fun ⟨e, x⟩ => (h e).ends x
  paired e := (h e).paired
  act e := (h e).act
  check e := (h e).check

variable {w' : World E} {a : Act E} {c : E}

omit [DecidableEq E] in
theorem Local.other (h : Local w d) (hk : w.Keeps w' d) (hs : w'.status d = w.status d)
    (ha : w'.act d = w.act d) (hc : w'.check d = w.check d)
    (hcopy : ∀ c l, w.act d = .copy c l → w'.status c = .building ∧
      (∀ e' l', w'.act e' = .copy c l' → e' = d) ∧ ∀ x, w'.maps (c, x) = w.maps (c, x)) :
      Local w' d where
  free hf x := by rw [hk.maps, h.free (hs ▸ hf)]
  quiet hl := by
    rw [ha, hc]
    exact h.quiet (hs ▸ hl)
  single := by
    rw [ha, hc]
    exact h.single
  ends x q p b hx hr := by
    rw [hk.maps] at hx
    exact h.ends x q p b hx (by rwa [hk.role x q hx] at hr)
  paired hl := hk.paired (h.paired (hs ▸ hl))
  act := ha ▸ hk.actOk h.act hcopy
  check := hc ▸ hk.checkOk h.paired (fun hl => hs.trans hl) h.check

omit [DecidableEq E] in
theorem Local.of_building (hs : w.status e = .building)
    (hquiet : w.act e = .idle ∧ w.check e = .idle)
    (hends : ∀ x q p b, w.maps (e, x) = some q → w.role q = .pipeEnd p b → x.1 = .fd) :
    Local w e where
  free hf := by
    rw [hs] at hf
    cases hf
  quiet _ := hquiet
  single := .inl hquiet.2
  ends := hends
  paired hl := by
    rw [hs] at hl
    cases hl
  act := by
    rw [hquiet.1]
    trivial
  check := by
    rw [hquiet.2]
    trivial

section

variable (hw : WorldInv w)
include hw

theorem lib {f : Effect E} (hlive : w.status e = .live)
    (hcheck : w.check e = .idle) (h : LibStep w e (w.act e) f a) :
    WorldInv ((w.apply f).setAct e a) := by
  have hallowed := h.allowed (hw.act e)
  have hstatus : ((w.apply f).setAct e a).status = w.status := apply_status f
  have hcheck' : ((w.apply f).setAct e a).check = w.check := apply_check f
  have hact : ∀ d, d ≠ e → ((w.apply f).setAct e a).act d = w.act d := by
    intro d hd
    rw [setAct_act, update_of_ne hd, apply_act]
  have hends : ∀ x q p b, ((w.apply f).setAct e a).maps x = some q →
      ((w.apply f).setAct e a).role q = .pipeEnd p b → x.2.1 = .fd :=
    fun x q p b hx hr => hallowed.ends_fd hw.ends hx hr
  refine of_local fun d => ?_
  rcases eq_or_ne d e with rfl | hne
  · refine ⟨fun hf => ?_, fun hl => absurd (by rw [hstatus, hlive]) hl,
      .inl (by rw [hcheck', hcheck]),
      fun x => hends (d, x), fun _ => h.paired_self hlive (hw.act d) (hw.paired d hlive), ?_, ?_⟩
    · rw [hstatus, hlive] at hf
      cases hf
    · rw [setAct_act, update_self]
      exact (h.actOk_self hlive (hw.act d)).setAct fun _ _ _ _ _ => rfl
    · rw [hcheck', hcheck]
      trivial
  by_cases hb : w.status d = .building
  · have hquiet := hw.quiet d (by rw [hb]; nofun)
    exact .of_building (by rw [hstatus, hb]) (by rw [hact d hne, hcheck']; exact hquiet) fun x =>
      hends (d, x)
  -- nobody but a child in the making is a child of `e`
  have hchild : ∀ l, w.act e ≠ .copy d l := by
    intro l hl
    have hok := hw.act e
    rw [hl] at hok
    exact hb hok.1
  refine (hw.at_env d).other (hallowed.keeps hne hchild a) (by rw [hstatus]) (hact d hne)
    (by rw [hcheck'])
    fun c l hcl => ?_
  have hok := hw.act d
  rw [hcl] at hok
  have hce : c ≠ e := by
    rintro rfl
    have hc := hok.1
    rw [hlive] at hc
    cases hc
  refine ⟨by rw [hstatus]; exact hok.1, fun e' l' hl => ?_, fun x => ?_⟩
  · rcases eq_or_ne e' e with rfl | he'
    · rw [setAct_act, update_self] at hl
      rw [hl] at h
      obtain ⟨l'', hl''⟩ := h.copy_inv
      exact hok.2.1 e' l'' hl''
    · rw [hact e' he'] at hl
      exact hok.2.1 e' l' hl
  · exact hallowed.maps_other hce fun l' hl' => hne (hok.2.1 e l' hl').symm

/-- The parent changes the status of its child and what it does itself. -/
theorem setChild {st : Status} (hce : c ≠ e) (hlive : w.status e = .live)
    (hparent : ∀ d l, w.act d = .copy c l → d = e)
    (hchild : Local ((w.setStatus c st).setAct e a) c)
    (hsingle : w.check e = .idle ∨ a = .idle) (ha : ((w.setStatus c st).setAct e a).ActOk e a)
    (hcopy : ∀ c' l, a = .copy c' l → c' = c) : WorldInv ((w.setStatus c st).setAct e a) := by
  have hstatus : ∀ d, d ≠ c → ((w.setStatus c st).setAct e a).status d = w.status d :=
    fun d hd => update_of_ne hd _ _
  have hact : ((w.setStatus c st).setAct e a).act e = a := update_self ..
  refine of_local fun d => ?_
  rcases eq_or_ne d c with rfl | hdc
  · exact hchild
  have hkeeps : w.Keeps ((w.setStatus c st).setAct e a) d := keeps_of_maps_eq rfl rfl id id
  rcases eq_or_ne d e with rfl | hne
  · refine ⟨fun hf => ?_, fun hl => absurd ((hstatus d hdc).trans hlive) hl,
      ?_, fun x => hw.ends (d, x), fun _ => hkeeps.paired (hw.paired d hlive), ?_,
      hkeeps.checkOk (hw.paired d) (fun hd => (hstatus d hdc).trans hd) (hw.check d)⟩
    · rw [hstatus d hdc, hlive] at hf
      cases hf
    · rwa [hact]
    · rwa [hact]
  · refine (hw.at_env d).other hkeeps (hstatus d hdc) (update_of_ne hne _ _) rfl fun c' l hcl => ?_
    have hok := hw.act d
    rw [hcl] at hok
    have hcc : c' ≠ c := by
      rintro rfl
      exact hne (hparent d l hcl)
    refine ⟨(hstatus c' hcc).trans hok.1, fun e' l' hl => ?_, fun x => rfl⟩
    rcases eq_or_ne e' e with rfl | he'
    · exact absurd (hcopy c' l' (hact.symm.trans hl)) hcc
    · rw [setAct_act, update_of_ne he'] at hl
      exact hok.2.1 e' l' hl

theorem exofork (hlive : w.status e = .live)
    (hcheck : w.check e = .idle) (hc : w.status c = .free) :
    WorldInv ((w.setStatus c .building).setAct e (.copy c (w.pagesOf e))) := by
  have hce : c ≠ e := by
    rintro rfl
    rw [hlive] at hc
    cases hc
  have hbuilding : ((w.setStatus c .building).setAct e (.copy c (w.pagesOf e))).status c =
      .building := update_self ..
  -- nobody was making this child
  have hnew : ∀ d l, w.act d ≠ .copy c l := by
    intro d l hl
    have hok := hw.act d
    rw [hl] at hok
    rw [hok.1] at hc
    cases hc
  refine hw.setChild hce hlive (fun d l hl => absurd hl (hnew d l))
    (.of_building hbuilding ?_ fun x => hw.ends (c, x)) (.inl hcheck)
      ⟨hbuilding, fun e' l' hl => ?_, fun x hx => ?_⟩
    fun c' l hl => (Act.copy.inj hl).1.symm
  · rw [setAct_act, update_of_ne hce]
    exact hw.quiet c (by rw [hc]; nofun)
  · by_contra he'
    rw [setAct_act, update_of_ne he'] at hl
    exact hnew e' l' hl
  · -- what is not in the list is not mapped in the parent, and the child has nothing
    change w.maps (c, x) = w.maps (e, x)
    rw [hw.free c x hc]
    by_contra hx'
    exact hx (mem_pagesOf.mpr (Option.isSome_iff_ne_none.mpr (Ne.symm hx')))

theorem started (hact : w.act e = .copy c []) :
    WorldInv ((w.setStatus c .live).setAct e .idle) := by
  have hok := hw.act e
  rw [hact] at hok
  obtain ⟨hc, hparent, hsame⟩ := hok
  have hlive : w.status e = .live := hw.live_of_act (by rw [hact]; nofun)
  have hquiet := hw.quiet c (by rw [hc]; nofun)
  have hce : c ≠ e := by
    rintro rfl
    rw [hlive] at hc
    cases hc
  have hstarted : ((w.setStatus c .live).setAct e .idle).status c = .live :=
    update_self ..
  have hkeeps : w.Keeps ((w.setStatus c .live).setAct e .idle) c := keeps_of_maps_eq rfl rfl id id
  refine hw.setChild hce hlive hparent ⟨fun hf => ?_, fun hl => absurd hstarted hl, .inl hquiet.2,
    fun x => hw.ends (c, x), fun _ => ?_, ?_,
    hkeeps.checkOk (hw.paired c) (fun _ => hstarted) (hw.check c)⟩
    (.inr rfl) trivial nofun
  · rw [hstarted] at hf
    cases hf
  · -- the child has what its parent has
    intro i q p b hq hr
    change w.maps (c, .fd, i) = some q at hq
    change w.maps (c, .data, i) = some p
    rw [hsame _ (by simp)] at hq ⊢
    exact hw.paired e hlive i q p b hq hr
  · rw [setAct_act, update_of_ne hce]
    change World.ActOk _ c (w.act c)
    rw [hquiet.1]
    trivial

theorem destroy (hparent : ∀ e' l, w.act e' ≠ .copy e l) :
    WorldInv ((((w.freeMaps e).setStatus e .free).setAct e .idle).setCheck e .idle) := by
  generalize hw' : (((w.freeMaps e).setStatus e .free).setAct e .idle).setCheck e .idle = w'
  have hmaps : w'.maps = (w.freeMaps e).maps := by rw [← hw']; rfl
  have hact : ∀ d, d ≠ e → w'.act d = w.act d := fun d hd => by
    rw [← hw']
    exact update_of_ne hd _ _
  have hgone : w'.status e = .free ∧ w'.act e = .idle ∧ w'.check e = .idle := by
    rw [← hw']
    exact ⟨update_self .., update_self .., update_self ..⟩
  have hkeeps : ∀ d, d ≠ e → w.Keeps w' d := fun d hd =>
    keeps_freeMaps hd hmaps (by rw [← hw']; rfl) (by rw [← hw']; exact id) (by rw [← hw']; exact id)
  have hempty : ∀ x, w'.maps (e, x) = none := fun x => by
    rw [hmaps]
    exact if_pos rfl
  have hstatus : ∀ d, d ≠ e → w'.status d = w.status d := fun d hd => by
    rw [← hw']
    exact update_of_ne hd _ _
  refine of_local fun d => ?_
  rcases eq_or_ne d e with rfl | hne
  · refine ⟨fun _ => hempty, fun _ => hgone.2, .inl hgone.2.2, fun x q p b hx =>
      ?_, fun hl => ?_, ?_, ?_⟩
    · rw [hempty x] at hx
      cases hx
    · rw [hgone.1] at hl
      cases hl
    · rw [hgone.2.1]
      trivial
    · rw [hgone.2.2]
      trivial
  · refine (hw.at_env d).other (hkeeps d hne) (hstatus d hne) (hact d hne)
      (by rw [← hw']; exact update_of_ne hne _ _) fun c l hcl => ?_
    have hok := hw.act d
    rw [hcl] at hok
    have hce : c ≠ e := by
      rintro rfl
      exact hparent d l hcl
    refine ⟨(hstatus c hce).trans hok.1, fun e' l' hl => ?_, (hkeeps c hce).maps⟩
    rcases eq_or_ne e' e with rfl | he'
    · rw [hgone.2.1] at hl
      cases hl
    · rw [hact e' he'] at hl
      exact hok.2.1 e' l' hl

/-- A step of `_pipeisclosed` changes what `e` knows and nothing else. -/
theorem checked {c : Check} (hlive : w.status e = .live)
    (hidle : w.act e = .idle) (hmaps : w'.maps = w.maps) (hrole : w'.role = w.role)
    (hstatus : w'.status = w.status) (hact : w'.act = w.act)
    (hcheck : w'.check = update w.check e c)
    (hstill : ∀ d, d ≠ e → w'.still d → w.still d) (hclean : ∀ d, d ≠ e → w'.clean d → w.clean d)
    (hok : w'.CheckOk e c) : WorldInv w' := by
  have hcopy : ∀ d c l, w.act d = .copy c l → w'.status c = .building ∧
      (∀ e' l', w'.act e' = .copy c l' → e' = d) ∧ ∀ x, w'.maps (c, x) = w.maps (c, x) := by
    intro d c l hcl
    have hc := hw.act d
    rw [hcl] at hc
    exact ⟨by rw [hstatus]; exact hc.1, by rw [hact]; exact hc.2.1, fun x => by rw [hmaps]⟩
  refine of_local fun d => ?_
  rcases eq_or_ne d e with rfl | hne
  · refine ⟨fun hf => ?_, fun hl => absurd (by rw [hstatus, hlive]) hl,
      .inr (by rw [hact, hidle]), ?_, fun _ i q p b hq hr => ?_, ?_, ?_⟩
    · rw [hstatus, hlive] at hf
      cases hf
    · rw [hmaps, hrole]
      exact fun x => hw.ends (d, x)
    · rw [hmaps] at hq ⊢
      rw [hrole] at hr
      exact hw.paired d hlive i q p b hq hr
    · rw [hact, hidle]
      trivial
    · rwa [hcheck, update_self]
  · exact (hw.at_env d).other (keeps_of_maps_eq hmaps hrole (hstill d hne) (hclean d hne))
      (by rw [hstatus])
      (by rw [hact]) (by rw [hcheck, update_of_ne hne]) (hcopy d)

omit [DecidableEq E] in
theorem of_envRuns (n : E → ℕ) : WorldInv { w with envRuns := n } :=
  of_local fun d => (hw.at_env d).other (keeps_of_maps_eq rfl rfl id id)
    rfl rfl rfl fun c l hcl => by
    have hok := hw.act d
    rw [hcl] at hok
    exact ⟨hok.1, hok.2.1, fun _ => rfl⟩

omit [DecidableEq E] in
/-- An environment in `_pipeisclosed` runs and makes no other call. -/
theorem checking {c : Check} (hc : w.check e = c) (hne : c ≠ .idle) :
    w.status e = .live ∧ w.act e = .idle ∧ w.CheckOk e c := by
  subst hc
  refine ⟨?_, (hw.single e).resolve_left hne, hw.check e⟩
  by_contra hlive
  exact hne (hw.quiet e hlive).2

theorem step (hcard : Fintype.card E ≤ 1024) {l : WorldLabel E}
    (h : WorldStep w l w') (hdup : ∀ e new, l ≠ .dupOutside e new) : WorldInv w' := by
  cases h with
  | lib hlive hcheck hs => exact hw.lib hlive hcheck hs
  | dupOutside => exact absurd rfl (hdup _ _)
  | exofork hlive hcheck _ hc => exact hw.exofork hlive hcheck hc
  | started hact => exact hw.started hact
  | destroy hparent => exact hw.destroy hparent
  | loadN hold hidle =>
    exact hw.checked hold.live hidle rfl rfl rfl rfl rfl (fun _ _ => id) (fun _ _ => id)
      ⟨_, _, _, hold.live, hold.fd, hold.role⟩
  | @loadFd e i n q' hc hq' =>
    obtain ⟨hlive, hidle, q, p, b, hold⟩ := hw.checking hc nofun
    obtain rfl := Option.some.inj (hold.fd.symm.trans hq')
    exact hw.checked hlive hidle rfl rfl rfl rfl rfl (fun d hd hs => still_of_setStill hd hs)
      (fun _ _ => id) ⟨q, p, b, ⟨hlive, hold.fd, hold.role⟩, fun _ => rfl⟩
  | @loadP e i n p' hc hp' =>
    obtain ⟨hlive, hidle, q, p, b, hold⟩ := hw.checking hc nofun
    have hp := hw.paired e hlive i q p b hold.fd hold.role
    obtain rfl := Option.some.inj (hp.symm.trans hp')
    exact hw.checked hlive hidle rfl rfl rfl rfl rfl (fun d hd hs => still_of_setStill hd hs)
      (fun _ _ => id) ⟨q, p, b, ⟨hlive, hold.fd, hold.role⟩, fun _ => rfl⟩
  | @compareP e i n m p' hc hp' =>
    obtain ⟨hlive, hidle, q, p, b, hold, hm⟩ := hw.checking hc nofun
    have hp := hw.paired e hlive i q p b hold.fd hold.role
    obtain rfl := Option.some.inj (hp.symm.trans hp')
    refine hw.checked hlive hidle rfl rfl rfl rfl rfl (fun _ _ => id)
      (fun d hd hs => clean_of_setClean hd hs)
      ⟨q, p, b, ⟨hlive, hold.fd, hold.role⟩, fun hret hclean => ?_⟩
    obtain ⟨hstill, hhalf⟩ := of_setClean_self hclean
    exact hw.noOther_of_count hcard hold hhalf ((hm hstill).symm.trans (beq_iff_eq.mp hret))
  | @compareFd e i n m q' p' hc hq' hp' =>
    obtain ⟨hlive, hidle, q, p, b, hold, hm⟩ := hw.checking hc nofun
    have hp := hw.paired e hlive i q p b hold.fd hold.role
    obtain rfl := Option.some.inj (hp.symm.trans hp')
    obtain rfl := Option.some.inj (hold.fd.symm.trans hq')
    refine hw.checked hlive hidle rfl rfl rfl rfl rfl (fun _ _ => id)
      (fun d hd hs => clean_of_setClean hd hs)
      ⟨q, p, b, ⟨hlive, hold.fd, hold.role⟩, fun hret hclean => ?_⟩
    obtain ⟨hstill, hhalf⟩ := of_setClean_self hclean
    exact hw.noOther_of_count hcard hold hhalf ((beq_iff_eq.mp hret).trans (hm hstill))
  | @answer e i n ret hc =>
    obtain ⟨hlive, hidle, -⟩ := hw.checking hc nofun
    exact hw.checked hlive hidle rfl rfl rfl rfl rfl (fun _ _ => id) (fun _ _ => id) trivial
  | @retry e i n ret hc =>
    obtain ⟨hlive, hidle, q, p, b, hold, -⟩ := hw.checking hc nofun
    exact hw.checked hlive hidle rfl rfl rfl rfl rfl (fun _ _ => id) (fun _ _ => id)
      ⟨q, p, b, hlive, hold.fd, hold.role⟩
  | resched => exact hw.of_envRuns _

end

end WorldInv

/-! ### The answers -/

/-- Before the first pipe: no descriptor is open and no call is in progress. -/
def World.boot (status : E → Status) : World E where
  maps _ := none
  role _ := .plain
  status := status
  act _ := .idle
  check _ := .idle
  envRuns _ := 0
  still _ := False
  clean _ := False

/-- A step other than a `dup` to a number outside of the table, at which `_pipeisclosed` does not
    return true, or returns it for two counts loaded with no system call between them and while no
    child in the making had a Fd page of the pipe. -/
def CleanStep (w : World E) (l : WorldLabel E) (w' : World E) : Prop :=
  WorldStep w l w' ∧ (∀ e new, l ≠ .dupOutside e new) ∧ ∀ e i, l = .answer e i true → w.clean e

omit [DecidableEq E] in
theorem WorldInv.boot (status : E → Status) : WorldInv (World.boot status) where
  free _ _ _ := rfl
  quiet _ _ := ⟨rfl, rfl⟩
  single _ := .inl rfl
  ends _ _ _ _ hx := by cases hx
  paired _ _ _ _ _ _ hq := by cases hq
  act _ := trivial
  check _ := trivial

/-- Whoever is told that the other end is closed holds an end of the pipe, and no environment has
    the Fd page of the other end mapped. -/
theorem not_closed_while_open (hcard : Fintype.card E ≤ 1024) {status : E → Status}
    {ls : List (WorldLabel E)} {w w' : World E} (h : Run CleanStep (.boot status) ls w) {e : E}
    {i : FdNum} (hs : CleanStep w (.answer e i true) w') :
    ∃ q p b, w.Holder e i q p b ∧ w.NoOther p b := by
  have hw : WorldInv w :=
    h.invariant WorldInv (.boot status) fun a _ b ha hab => ha.step hcard hab.1 hab.2.1
  obtain ⟨hs, -, hclean⟩ := hs
  have hclean := hclean e i rfl
  cases hs with
  | answer hc =>
    have hok := hw.check e
    rw [hc] at hok
    obtain ⟨q, p, b, hold, hother⟩ := hok
    exact ⟨q, p, b, hold, hother rfl hclean⟩

/-- One environment makes a pipe, closes the write end and asks about the read end. -/
theorem not_closed_while_open_alone : ∃ (ls : List (WorldLabel (Fin 1))) (w w' : World (Fin 1)),
    Run CleanStep (.boot fun _ => .live) ls w ∧ CleanStep w (.answer 0 0 true) w' ∧
      ∃ q p b, w.Holder 0 0 q p b ∧ w.NoOther p b := by
  have hlib : ∀ {w : World (Fin 1)} {f a}, w.status 0 = .live → w.check 0 = .idle →
      LibStep w 0 (w.act 0) f a → CleanStep w (.lib 0) ((w.apply f).setAct 0 a) :=
    fun hlive hcheck h => ⟨.lib hlive hcheck h, by nofun, by nofun⟩
  have h1 : Run CleanStep (.boot fun _ : Fin 1 => .live) _ _ :=
    .single (hlib rfl rfl (.pipe (i := 0) (q := 0) rfl (by decide)))
  have h2 := h1.snoc (hlib rfl rfl (.pipeFd1 (j := 1) (q := 1) rfl (by decide)))
  have h3 := h2.snoc (hlib rfl rfl (.pipeData (q := 2) (by decide)))
  have h4 := h3.snoc (hlib rfl rfl .pipeMap)
  have h5 := h4.snoc (hlib rfl rfl (.pipeSet rfl rfl rfl))
  have h6 := h5.snoc (hlib rfl rfl (.close (i := 1) rfl))
  have h7 := h6.snoc (hlib rfl rfl .unmap)
  have h8 := h7.snoc (hlib rfl rfl .unmap)
  have h9 := h8.snoc (hlib rfl rfl .unmap)
  have h10 := h9.snoc (hlib rfl rfl .unmapped)
  have h11 := h10.snoc ⟨.loadN (e := 0) (i := 0) (q := 0) (p := 2) (b := false)
    ⟨by decide, by decide, by decide⟩ (by decide)
    (by decide), by nofun, by nofun⟩
  have h12 := h11.snoc ⟨.loadFd (e := 0) (i := 0) (n := 0) (q := 0) (by decide)
    (by decide), by nofun, by nofun⟩
  have h13 := h12.snoc ⟨.compareP (e := 0) (i := 0) (n := 0) (m := 1) (p := 2) (by decide)
    (by decide), by nofun, by nofun⟩
  -- the answer, in any state that is about to give it
  have hanswer : ∀ {ls} {w : World (Fin 1)}, Run CleanStep (.boot fun _ => .live) ls w →
      w.check 0 = .compared 0 0 true → 0 = w.envRuns 0 → w.clean 0 →
      ∃ (ls : List (WorldLabel (Fin 1))) (w w' : World (Fin 1)),
        Run CleanStep (.boot fun _ => .live) ls w ∧ CleanStep w (.answer 0 0 true) w' ∧
          ∃ q p b, w.Holder 0 0 q p b ∧ w.NoOther p b := by
    intro ls w h hc hn hclean
    have hs : CleanStep w (.answer 0 0 true) (w.setCheck 0 .idle) :=
      ⟨.answer hc hn, by nofun, fun e i _ => Subsingleton.elim 0 e ▸ hclean⟩
    exact ⟨ls, w, _, h, hs, not_closed_while_open (by decide) h hs⟩
  exact hanswer h13 (by decide) rfl ⟨trivial, fun _ _ _ _ hb => nomatch hb⟩

/-- Environment 0 makes a pipe and forks environment 1, which closes its write end. While
    environment 0 forks again and has copied the Fd page of the read end, environment 1 asks about
    the read end: both counts are 3, and environment 0 has the write end open. -/
theorem closed_while_open : ∃ (ls : List (WorldLabel (Fin 3))) (w w' : World (Fin 3)),
    Run WorldStep (.boot fun e => if e = 0 then .live else .free) ls w ∧
      WorldStep w (.answer 1 0 true) w' ∧ w.Holder 1 0 0 2 false ∧ w.Holder 0 1 1 2 true := by
  have h1 : Run WorldStep (.boot fun e : Fin 3 => if e = 0 then .live else .free) _ _ :=
    .single (.lib (e := 0) rfl rfl (.pipe (i := 0) (q := 0) rfl (by decide +kernel)))
  have h2 := h1.snoc (.lib (e := 0) rfl rfl (.pipeFd1 (j := 1) (q := 1) rfl (by decide +kernel)))
  have h3 := h2.snoc (.lib (e := 0) rfl rfl (.pipeData (q := 2) (by decide +kernel)))
  have h4 := h3.snoc (.lib (e := 0) rfl rfl .pipeMap)
  have h5 := h4.snoc (.lib (e := 0) rfl rfl (.pipeSet rfl rfl rfl))
  have h6 := h5.snoc (.exofork (e := 0) (c := 1) rfl rfl rfl rfl)
  have h7 := h6.snoc (.lib (e := 0) rfl rfl .copy)
  have h8 := h7.snoc (.lib (e := 0) rfl rfl .copy)
  have h9 := h8.snoc (.lib (e := 0) rfl rfl .copy)
  have h10 := h9.snoc (.lib (e := 0) rfl rfl .copy)
  have h11 := h10.snoc (.started (e := 0) (c := 1) (by decide))
  have h12 := h11.snoc (.lib (e := 1) (by decide) (by decide)
    (.close (i := 1) (q := 1) (by decide)))
  have h13 := h12.snoc (.lib (e := 1) (by decide) (by decide) .unmap)
  have h14 := h13.snoc (.lib (e := 1) (by decide) (by decide) .unmap)
  have h15 := h14.snoc (.lib (e := 1) (by decide) (by decide) .unmap)
  have h16 := h15.snoc (.lib (e := 1) (by decide) (by decide) .unmapped)
  have h17 := h16.snoc (.exofork (e := 0) (c := 2) (by decide) (by decide) (by decide) (by decide))
  have h18 := h17.snoc (.lib (e := 0) (by decide) (by decide) .copy)
  have h19 := h18.snoc (.loadN (e := 1) (i := 0) (q := 0) (p := 2) (b := false)
    ⟨by decide, by decide, by decide⟩ (by decide) (by decide))
  have h20 := h19.snoc (.loadFd (e := 1) (i := 0) (n := 0) (q := 0) (by decide) (by decide))
  have h21 := h20.snoc (.compareP (e := 1) (i := 0) (n := 0) (m := 3) (p := 2) (by decide)
    (by decide))
  exact ⟨_, _, _, h21, .answer (n := 0) (by decide) (by decide), ⟨by decide, by decide, by decide⟩,
    ⟨by decide, by decide, by decide⟩⟩

end LinuxStudy.User
