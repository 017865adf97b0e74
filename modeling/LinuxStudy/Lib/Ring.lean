import Mathlib.Data.List.Basic
import Mathlib.Data.Nat.ModEq
import Mathlib.Logic.Function.Basic

/-!
# Ring buffers

A queue kept in `n` cells, the oldest element at position `r` modulo `n` and the others after
it. The reader takes the element at `r` and moves on, the writer stores behind the last one.

## Main definitions

- `Ring.Holds n buf r q` — the cells hold the queue `q`
- `Ring.Line n P buf ins outs q` — the same before the first wrap, with what came and what was taken
-/

namespace LinuxStudy.Ring

variable {α : Type*} {n r r' c i j : ℕ} {buf buf' : ℕ → α} {q : List α} {a : α}

/-- Cells `0` to `n - 1` hold the queue `q`, oldest element first, from position `r` on. -/
structure Holds (n : ℕ) (buf : ℕ → α) (r : ℕ) (q : List α) : Prop where
  length_le : q.length ≤ n
  cell : ∀ i (h : i < q.length), buf ((r + i) % n) = q[i]

/-- Positions less than a round apart are in different cells. -/
theorem cell_ne (hij : i < j) (hjn : j < i + n) : (r + i) % n ≠ (r + j) % n := by
  intro heq
  have hmod : j - i ≡ 0 [MOD n] := by
    refine Nat.ModEq.add_left_cancel' (r + i) ?_
    rw [show r + i + (j - i) = r + j by omega, Nat.add_zero]
    exact heq.symm
  have hzero : j - i = 0 := Nat.eq_zero_of_dvd_of_lt ((Nat.modEq_zero_iff_dvd).mp hmod) (by omega)
  omega

namespace Holds

theorem nil : Holds n buf r ([] : List α) := ⟨Nat.zero_le n, fun i h => absurd h (by simp)⟩

theorem of_mod_eq (h : Holds n buf r q) (hr : r % n = r' % n) : Holds n buf r' q := by
  refine ⟨h.length_le, fun i hi => ?_⟩
  rw [← h.cell i hi, Nat.add_mod, ← hr, ← Nat.add_mod]

theorem congr (h : Holds n buf r q)
    (hbuf : ∀ i < q.length, buf' ((r + i) % n) = buf ((r + i) % n)) : Holds n buf' r q :=
  ⟨h.length_le, fun i hi => (hbuf i hi).trans (h.cell i hi)⟩

/-- The cell behind the last element is in use only in a full ring. -/
theorem free_cell (hlen : q.length < n) : ∀ i < q.length, (r + i) % n ≠ (r + q.length) % n :=
  fun i hi => cell_ne hi (by omega)

/-- **Push.** The next cell of a ring that is not full gets the new element, and the cells in
    use stay. -/
theorem push (h : Holds n buf r q) (hlen : q.length < n)
    (hbuf : ∀ i < q.length, buf' ((r + i) % n) = buf ((r + i) % n))
    (hlast : buf' ((r + q.length) % n) = a) : Holds n buf' r (q ++ [a]) := by
  refine ⟨by simpa using Nat.succ_le_of_lt hlen, fun i hi => ?_⟩
  rcases Nat.lt_or_ge i q.length with hlt | hge
  · rw [List.getElem_append_left hlt, (h.congr hbuf).cell i hlt]
  · obtain rfl : i = q.length := by
      rw [List.length_append, List.length_singleton] at hi
      omega
    rw [hlast, List.getElem_concat_length rfl]

theorem push_update (h : Holds n buf r q) (hlen : q.length < n) :
    Holds n (Function.update buf ((r + q.length) % n) a) r (q ++ [a]) :=
  h.push hlen (fun i hi => Function.update_of_ne (free_cell hlen i hi) _ _)
    (Function.update_self ..)

/-- **Pop.** The first element is at the read position, and the rest is held from the next. -/
theorem pop (h : Holds n buf r (a :: q)) : buf (r % n) = a ∧ Holds n buf (r + 1) q := by
  refine ⟨?_, ?_, fun i hi => ?_⟩
  · exact h.cell 0 (Nat.succ_pos _)
  · have := h.length_le
    rw [List.length_cons] at this
    omega
  · have := h.cell (i + 1) (by simpa using hi)
    rw [List.getElem_cons_succ, show r + (i + 1) = r + 1 + i by omega] at this
    exact this

end Holds

/-- Fewer than `n` elements `ins` have come, and `outs` of them have been taken: the cells behind
    these hold the rest, elements of `P`. -/
structure Line (n : ℕ) (P : α → Prop) (buf : ℕ → α) (ins outs q : List α) : Prop where
  order : ins = outs ++ q
  few : ins.length < n
  all : ∀ a ∈ q, P a
  cell : ∀ i (h : i < q.length), buf (outs.length + i) = q[i]

namespace Line

variable {P : α → Prop} {ins outs : List α}

theorem nil (hn : 0 < n) : Line n P buf [] [] [] := ⟨rfl, hn, nofun, nofun⟩

theorem length_eq (h : Line n P buf ins outs q) : ins.length = outs.length + q.length := by
  rw [h.order, List.length_append]

theorem congr (h : Line n P buf ins outs q)
    (hbuf : ∀ i < q.length, buf' (outs.length + i) = buf (outs.length + i)) :
    Line n P buf' ins outs q :=
  ⟨h.order, h.few, h.all, fun i hi => (hbuf i hi).trans (h.cell i hi)⟩

theorem push (h : Line n P buf ins outs q) (hfew : (ins ++ [a]).length < n) (ha : P a)
    (hbuf : ∀ i < q.length, buf' (outs.length + i) = buf (outs.length + i))
    (hlast : buf' ins.length = a) : Line n P buf' (ins ++ [a]) outs (q ++ [a]) := by
  refine ⟨by rw [h.order, List.append_assoc], hfew, ?_, fun i hi => ?_⟩
  · exact List.forall_mem_append.mpr ⟨h.all, by simpa using ha⟩
  · rw [List.getElem_append]
    split
    · next hlt => exact (hbuf i hlt).trans (h.cell i hlt)
    · next hge =>
      obtain rfl : i = q.length := by
        rw [List.length_append, List.length_singleton] at hi
        omega
      rw [← h.length_eq, hlast, List.getElem_singleton]

theorem pop (h : Line n P buf ins outs (a :: q)) :
    buf outs.length = a ∧ Line n P buf ins (outs ++ [a]) q := by
  refine ⟨h.cell 0 (Nat.succ_pos _), by rw [h.order, List.append_assoc]; rfl, h.few,
    fun b hb => h.all b (List.mem_cons_of_mem a hb), fun i hi => ?_⟩
  rw [List.length_append, Nat.add_assoc, Nat.add_comm _ i]
  exact h.cell (i + 1) (Nat.succ_lt_succ hi)

end Line

end LinuxStudy.Ring
