import LinuxStudy.Jos.UserMem

/-!
# httpd: the request parser

`http_request_parse` of `user/httpd.c` runs over a buffer that holds what `read` returned and has
neither a length nor a terminator. The memory from the buffer on is a list, `none` is a read past
its end, and the parser returns with the number of bytes that it has looked at.
-/

namespace LinuxStudy.User.Httpd

open Jos

def eBadReq : ℤ := 1000

/-- The strings of a `struct http_request`. -/
structure Request where
  url : List Byte
  version : List Byte
  deriving DecidableEq

/-- `"GET "`. -/
def get : List Byte := [71, 69, 84, 32]

/-- `strncmp(p, q, n) != 0` for an `n` up to the length of `q`, and the bytes of `p` looked at. -/
def strncmp : List Byte → List Byte → ℕ → Option (Bool × ℕ)
  | _, _, 0 => some (false, 0)
  | b :: p, c :: q, n + 1 =>
    if b ≠ 0 ∧ b = c then (strncmp p q n).map fun r => (r.1, r.2 + 1) else some (b ≠ c, 1)
  | _, _, _ => none

/-- `while (*p && *p != c) p++`: how far `p` goes. -/
def skipTo (c : Byte) : List Byte → Option ℕ
  | [] => none
  | b :: p => if b ≠ 0 ∧ b ≠ c then (skipTo c p).map (· + 1) else some 0

/-- `http_request_parse` for a `req` that is not null, if `malloc` finds memory. -/
def httpRequestParse (request : List Byte) : Option (Except ℤ Request × ℕ) := do
  let (differs, seen) ← strncmp request get 4
  if differs then return (.error (-eBadReq), seen)
  let url := request.drop 4
  let urlLen ← skipTo 32 url
  -- skip space
  let version := url.drop (urlLen + 1)
  let versionLen ← skipTo 10 version
  return (.ok ⟨url.take urlLen, version.take versionLen⟩, 4 + (urlLen + 1) + (versionLen + 1))

/-- `handle_client` on the bytes that `read` has put into `buffer`, with what lies behind them. -/
def handleClient (received behind : List Byte) : Option (Except ℤ Request × ℕ) :=
  httpRequestParse (received ++ behind)

/-- The request in the received bytes. -/
def requested (received : List Byte) : Except ℤ Request :=
  if get <+: received then
    let rest := received.drop 4
    let url := rest.takeWhile (· ≠ 32)
    .ok ⟨url, (rest.drop (url.length + 1)).takeWhile (· ≠ 10)⟩
  else .error (-eBadReq)

/-- The received bytes settle what the request is: they differ from `"GET "`, or hold all of a
    request line and no NUL before its end. -/
inductive Complete : List Byte → Prop
  | bad {l : List Byte} (h : ¬get <+: l) (h' : ¬l <+: get) : Complete l
  | line {url version rest : List Byte} (hurl : ∀ b ∈ url, b ≠ 0 ∧ b ≠ 32)
      (hversion : ∀ b ∈ version, b ≠ 0 ∧ b ≠ 10) :
      Complete (get ++ (url ++ 32 :: (version ++ 10 :: rest)))

variable {c : Byte} {l p q : List Byte}

theorem skipTo_append (hl : ∀ b ∈ l, b ≠ 0 ∧ b ≠ c) : skipTo c (l ++ c :: p) = some l.length := by
  induction l with
  | nil => exact if_neg (by simp)
  | cons b l ih =>
    obtain ⟨hb, hl⟩ := List.forall_mem_cons.mp hl
    rw [List.cons_append, skipTo, if_pos hb, ih hl]
    rfl

theorem takeWhile_append (hl : ∀ b ∈ l, b ≠ 0 ∧ b ≠ c) : (l ++ c :: p).takeWhile (· ≠ c) = l := by
  rw [List.takeWhile_append_of_pos fun b hb => by simpa using (hl b hb).2]
  simp

/-- Strings that differ are told apart by the bytes up to the difference. -/
theorem strncmp_differs (hq : ∀ c ∈ q, c ≠ 0) (h : ¬q <+: p) (h' : ¬p <+: q) :
    ∃ k ≤ p.length, strncmp (p ++ l) q q.length = some (true, k) := by
  induction q generalizing p with
  | nil => exact absurd List.nil_prefix h
  | cons c q ih =>
    obtain ⟨hc, hrest⟩ := List.forall_mem_cons.mp hq
    cases p with
    | nil => exact absurd List.nil_prefix h'
    | cons b p =>
      rw [List.cons_append, List.length_cons, List.length_cons, strncmp]
      by_cases hbc : b = c
      · subst hbc
        rw [List.prefix_cons_inj] at h h'
        obtain ⟨k, hk, heq⟩ := ih hrest h h'
        refine ⟨k + 1, Nat.succ_le_succ hk, ?_⟩
        rw [if_pos ⟨hc, rfl⟩, heq]
        rfl
      · refine ⟨1, by simp, ?_⟩
        rw [if_neg fun h => hbc h.2, decide_eq_true hbc]

/-- A part of the second string does not tell: the byte behind it is looked at. -/
theorem strncmp_prefix {r : Bool × ℕ} (hq : ∀ c ∈ q, c ≠ 0) (hp : p <+: q)
    (hlt : p.length < q.length)
    (h : strncmp (p ++ l) q q.length = some r) : p.length < r.2 := by
  induction q generalizing p r with
  | nil => exact absurd hlt (by simp)
  | cons c q ih =>
    obtain ⟨hc, hrest⟩ := List.forall_mem_cons.mp hq
    cases p with
    | nil =>
      cases l with
      | nil => cases h
      | cons b l =>
        rw [List.nil_append, List.length_cons, strncmp] at h
        split at h
        · obtain ⟨_, _, rfl⟩ := Option.map_eq_some_iff.mp h
          exact Nat.succ_pos _
        · cases h
          exact Nat.one_pos
    | cons b p =>
      obtain ⟨rfl, hpq⟩ := List.cons_prefix_cons.mp hp
      rw [List.cons_append, List.length_cons, strncmp, if_pos ⟨hc, rfl⟩] at h
      obtain ⟨r', hr', rfl⟩ := Option.map_eq_some_iff.mp h
      exact Nat.succ_lt_succ (ih hrest hpq (Nat.lt_of_succ_lt_succ hlt) hr')

theorem skipTo_take {n : ℕ} (h : skipTo c p = some n) : ∀ b ∈ p.take n, b ≠ 0 ∧ b ≠ c := by
  induction p generalizing n with
  | nil => cases h
  | cons b p ih =>
    rw [skipTo] at h
    split at h
    · next hb =>
      obtain ⟨m, hm, rfl⟩ := Option.map_eq_some_iff.mp h
      rw [List.take_succ_cons, List.forall_mem_cons]
      exact ⟨hb, ih hm⟩
    · cases h
      simp

/-- Where `takeWhile` ends before the list does, the character is. -/
theorem eq_append_of_takeWhile {n : ℕ} (hn : n < l.length) (h : l.take n = l.takeWhile (· ≠ c)) :
    l = l.take n ++ c :: l.drop (n + 1) := by
  induction n generalizing l with
  | zero =>
    cases l with
    | nil => exact absurd hn (by simp)
    | cons b l =>
      rw [List.take_zero, List.takeWhile_cons] at h
      split at h
      · cases h
      · next hb =>
        obtain rfl : b = c := by simpa using hb
        rfl
  | succ n ih =>
    cases l with
    | nil => exact absurd hn (by simp)
    | cons b l =>
      rw [List.takeWhile_cons] at h
      split at h
      · have hrest := ih (Nat.lt_of_succ_lt_succ hn) (List.cons.inj h).2
        rw [List.take_succ_cons, List.cons_append, List.drop_succ_cons, ← hrest]
      · cases h

theorem strncmp_get (l : List Byte) : strncmp (get ++ l) get 4 = some (false, 4) := by
  simp [strncmp, get]

theorem drop_get (l : List Byte) : (get ++ l).drop 4 = l := rfl

section Received

variable {received behind rest : List Byte} {seen : ℕ}

theorem Complete.parsed (h : Complete received) :
    ∃ seen ≤ received.length, handleClient received behind = some (requested received, seen) := by
  rw [handleClient, httpRequestParse]
  cases h with
  | bad h h' =>
    obtain ⟨k, hk, hcmp⟩ := strncmp_differs (by decide) h h'
    refine ⟨k, hk, ?_⟩
    rw [show strncmp _ get 4 = _ from hcmp, requested, if_neg h]
    rfl
  | @line url version rest hurl hversion =>
    have hdrop : ∀ l, (url ++ 32 :: l).drop (url.length + 1) = l := fun l => by simp
    refine ⟨4 + (url.length + 1) + (version.length + 1), by simp [get]; omega, ?_⟩
    rw [requested, if_pos (List.prefix_append ..)]
    simp only [List.append_assoc, List.cons_append, Option.bind_eq_bind, strncmp_get,
      Option.bind_some, drop_get, skipTo_append hurl, hdrop, skipTo_append hversion,
      List.take_left, takeWhile_append hurl, takeWhile_append hversion]
    rfl

/-- After `"GET "` both searches end in the received bytes. -/
theorem complete_of_get (hseen : seen ≤ (get ++ rest).length)
    (h : handleClient (get ++ rest) behind = some (requested (get ++ rest), seen)) :
    Complete (get ++ rest) := by
  rw [handleClient, httpRequestParse, List.append_assoc, strncmp_get] at h
  obtain ⟨_, hstr, h⟩ := Option.bind_eq_some_iff.mp h
  cases hstr
  dsimp only at h
  rw [if_neg Bool.false_ne_true, drop_get] at h
  obtain ⟨u, hu, h⟩ := Option.bind_eq_some_iff.mp h
  obtain ⟨v, hv, h⟩ := Option.bind_eq_some_iff.mp h
  rw [requested, if_pos (List.prefix_append ..), drop_get] at h
  obtain ⟨hreq, rfl⟩ := Prod.mk.inj (Option.some.inj h)
  obtain ⟨hurl, hversion⟩ := Request.mk.inj (Except.ok.inj hreq)
  rw [List.length_append, show get.length = 4 from rfl] at hseen
  have hskip := skipTo_take hu
  have hskip' := skipTo_take hv
  rw [List.take_append_of_le_length (by omega)] at hurl hskip
  have hlen := congrArg List.length hurl
  rw [List.length_take, min_eq_left (by omega)] at hlen
  rw [← hlen, List.drop_append_of_le_length (by omega),
    List.take_append_of_le_length (by rw [List.length_drop]; omega)] at hversion
  rw [List.drop_append_of_le_length (by omega),
    List.take_append_of_le_length (by rw [List.length_drop]; omega)] at hskip'
  have hline := eq_append_of_takeWhile (by omega) hurl
  rw [eq_append_of_takeWhile (by rw [List.length_drop]; omega) hversion] at hline
  rw [hline]
  exact .line hskip hskip'

/-- **The parser stays within what was received** and finds the request there, if and only if the
    received bytes are complete, whatever lies behind them. -/
theorem request_within_received {received behind : List Byte} :
    (∃ seen ≤ received.length, handleClient received behind = some (requested received, seen)) ↔
      Complete received := by
  refine ⟨fun ⟨seen, hseen, h⟩ => ?_, Complete.parsed⟩
  by_cases hg : get <+: received
  · obtain ⟨rest, rfl⟩ := hg
    exact complete_of_get hseen h
  · refine .bad hg fun hpre => ?_
    rw [handleClient, httpRequestParse, requested, if_neg hg] at h
    obtain ⟨⟨differs, k⟩, hstr, h⟩ := Option.bind_eq_some_iff.mp h
    have hlt : received.length < get.length :=
      lt_of_le_of_ne hpre.length_le fun heq => hg (hpre.eq_of_length heq ▸ List.prefix_rfl)
    have hk := strncmp_prefix (by decide) hpre hlt hstr
    dsimp only at h
    split at h
    · cases h
      exact absurd hk (not_lt.mpr hseen)
    · obtain ⟨_, _, h⟩ := Option.bind_eq_some_iff.mp h
      obtain ⟨_, _, h⟩ := Option.bind_eq_some_iff.mp h
      cases h

end Received

theorem request_within_received_line : ∃ seen ≤ 9,
    handleClient [71, 69, 84, 32, 47, 32, 72, 10, 65] [] = some (.ok ⟨[47], [72]⟩, seen) :=
  have h : Complete (get ++ ([47] ++ 32 :: ([72] ++ 10 :: [65]))) := .line (by decide) (by decide)
  request_within_received.mpr h

/-- `"GET /"` without a space: the version is made of bytes behind the received ones. -/
theorem request_behind_received : requested [71, 69, 84, 32, 47] = .ok ⟨[47], []⟩ ∧
    handleClient [71, 69, 84, 32, 47] [0, 65, 0] = some (.ok ⟨[47], [65]⟩, 8) := by
  decide

end LinuxStudy.User.Httpd
